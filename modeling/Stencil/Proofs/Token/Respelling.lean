import Stencil.Proofs.Condition.Derivation
import Stencil.Proofs.Token.NormalForm
import Stencil.Proofs.Token.Trimming

/-! # Other spellings of a template

Tokens are delivered alike however their markers are spelled.
-/

/-! ## Lists that are related along the way

Two lists are related member by member, where the relation depends on a state that the members of
the first list lead through.
-/

namespace Stencil

/-- From the state `s` on, the members of two lists are related one by one. -/
inductive Along {α σ : Type} (next : σ → α → σ) (R : σ → α → α → Prop) :
    (s : σ) → List α → List α → Prop
  | nil (s : σ) : Along next R s [] []
  | cons {s : σ} {a b : α} {as bs : List α} :
    R s a b → Along next R (next s a) as bs → Along next R s (a :: as) (b :: bs)

namespace Along

variable {α σ : Type} {next : σ → α → σ} {R : σ → α → α → Prop} {s : σ} {as bs cs ds : List α}

theorem append (h : Along next R s as bs) (h' : Along next R (as.foldl next s) cs ds) :
    Along next R s (as ++ cs) (bs ++ ds) := by
  induction h with
  | nil s => exact h'
  | cons related _ ih => exact .cons related (ih h')

theorem exists_of_append (h : Along next R s (as ++ cs) bs) :
    ∃ first second, bs = first ++ second ∧ Along next R s as first ∧
      Along next R (as.foldl next s) cs second := by
  induction as generalizing s bs with
  | nil => exact ⟨[], bs, rfl, .nil s, h⟩
  | cons a as ih =>
    cases h with
    | cons related onward =>
      obtain ⟨first, second, rfl, here, beyond⟩ := ih onward
      exact ⟨_ :: first, second, rfl, .cons related here, beyond⟩

theorem map_eq {β : Type} {f : α → β} (same : ∀ s a b, R s a b → f a = f b)
    (h : Along next R s as bs) : as.map f = bs.map f := by
  induction h with
  | nil s => rfl
  | cons related _ ih => rw [List.map_cons, List.map_cons, same _ _ _ related, ih]

theorem of_map {β : Type} {f : β → α} {s : σ} {as bs : List β}
    (h : Along next R s (as.map f) (bs.map f)) :
    Along (fun s b => next s (f b)) (fun s b b' => R s (f b) (f b')) s as bs := by
  induction as generalizing s bs with
  | nil =>
    cases bs with
    | nil => exact .nil s
    | cons b bs => cases h
  | cons a as ih =>
    cases bs with
    | nil => cases h
    | cons b bs =>
      cases h with
      | cons related onward => exact .cons related (ih onward)

/-- Members that lead nowhere may be left out of both lists. -/
theorem filter {p : α → Bool} (same : ∀ s a b, R s a b → p a = p b)
    (idle : ∀ s a, p a = false → next s a = s) (h : Along next R s as bs) :
    Along next R s (as.filter p) (bs.filter p) := by
  induction h with
  | nil s => exact .nil s
  | @cons s a b as bs related _ ih =>
    have alike := same _ _ _ related
    cases kept : p a with
    | true =>
      rw [List.filter_cons_of_pos kept, List.filter_cons_of_pos (alike ▸ kept)]
      exact .cons related ih
    | false =>
      rw [List.filter_cons_of_neg (by simp [kept]),
        List.filter_cons_of_neg (by simp [← alike, kept]), ← idle s a kept]
      exact ih

end Along

/-- Members that lead nowhere may be left out. -/
theorem foldl_filter {α σ : Type} {next : σ → α → σ} {p : α → Bool}
    (idle : ∀ s a, p a = false → next s a = s) (s : σ) (as : List α) :
    (as.filter p).foldl next s = as.foldl next s := by
  induction as generalizing s with
  | nil => rfl
  | cons a as ih =>
    cases kept : p a with
    | true => rw [List.filter_cons_of_pos kept, List.foldl_cons, List.foldl_cons, ih]
    | false => rw [List.filter_cons_of_neg (by simp [kept]), List.foldl_cons, idle s a kept, ih]

/-! ## What is read has been written

The ways to write an element are all there are: whatever is read as an element stands for it, and a
text that is delivered to its end splits into elements. Main statement:
`Tokenizer.exists_splits_of_drain`.
-/

/-- Trimming cuts off nothing but blanks. -/
theorem Text.exists_blanks (cs : List Char) :
    ∃ before after, cs = before ++ trim cs ++ after ∧ ∀ c ∈ before ++ after, isBlank c = true := by
  refine ⟨cs.takeWhile isBlank, (cs.dropWhile isBlank).rtakeWhile isBlank, ?_, fun c mem => ?_⟩
  · rw [trim_eq_rdropWhile, List.append_assoc, List.rdropWhile_append_rtakeWhile,
      List.takeWhile_append_dropWhile]
  · rcases List.mem_append.1 mem with leading | trailing
    · exact List.mem_takeWhile_imp leading
    · exact List.mem_rtakeWhile_imp trailing

namespace Token

/-! ### Markers -/

theorem Keyword.spells_of_ofWord? {keyword : Keyword} {word : List Char}
    (h : ofWord? word = some keyword) : keyword.Spells word := by
  have same := List.find?_some h
  exact (beq_iff_eq.1 same).symm

theorem isWritten_of_readMarker? {cs : List Char} {token : Token} {length : Nat}
    (h : readMarker? cs = .ok (some (token, length))) (one_line : '\n' ∉ cs.take length) :
    token.IsWritten ('[' :: cs.take length) := by
  obtain ⟨keyword, argument, means, follows, -⟩ := exists_follows_of_readMarker? h
  generalize cs.take length = text at follows one_line
  cases follows with
  | bare spelled => exact ⟨keyword, [], .bare (Keyword.spells_of_ofWord? spelled), means⟩
  | @argument word argument spelled unclosed =>
    obtain ⟨before, after, cut, blanks⟩ := Text.exists_blanks argument
    have blanks' : ∀ c ∈ before ++ after, Text.isBlank c = true ∧ c ≠ '\n' := by
      refine fun c mem => ⟨blanks c mem, ?_⟩
      rintro rfl
      refine one_line ?_
      rw [cut]
      simp only [List.mem_append, List.mem_cons] at mem ⊢
      tauto
    have within {c : Char} (mem : c ∈ Text.trim argument) : c ∈ argument := Text.mem_of_mem_trim mem
    have writes := Keyword.Writes.argument (Keyword.spells_of_ofWord? spelled) blanks'
      (fun mem => unclosed (within mem)) (fun mem => one_line (by simp [within mem]))
      (Text.trim_trim argument)
    rw [← cut] at writes
    exact ⟨keyword, Text.trim argument, writes, means⟩

namespace Element

def isMarker : Element → Bool
  | literal _ => false
  | marked token => token.isMarker

/-- What is read of an element stands for it. A marker must not go beyond its line. -/
theorem stands_of_read {c : Char} {cs : List Char} {element : Element} {more : Nat}
    (h : Element.read c cs = .ok (element, more))
    (one_line : element.isMarker = true → '\n' ∉ cs.take more) :
    element.Stands (cs.drop more) (c :: cs.take more) := by
  cases reading_of_read h with
  | @escaped d rest backslash follows special =>
    rw [backslash, follows]
    exact .escaped special
  | single alone => exact .single h
  | var brace read =>
    obtain ⟨name, rfl, named, written, -⟩ := exists_name_of_readVariable? read
    rw [brace, written]
    exact .var named
  | marker bracket read =>
    obtain ⟨keyword, argument, means, -⟩ := exists_keyword_of_readMarker? read
    rw [bracket]
    exact .marker (isWritten_of_readMarker? read (one_line (Keyword.isMarker_of_token means)))

end Element

/-! ### Texts -/

namespace Splits

variable {before rest : List Char} {elements others : List Element}

/-- A character that ends a line, or may end it, ends the elements before it. -/
theorem append_break {c : Char} (h : Splits before elements) (ends : c = '\n' ∨ c = '\r')
    (h' : Splits rest others) :
    Splits (before ++ c :: rest) (elements ++ .literal c :: others) := by
  induction h with
  | nil =>
    have alone : Element.read c rest = .ok (.literal c, 0) := by
      rcases ends with rfl | rfl <;> rfl
    exact @Splits.cons [c] rest _ _ (.single alone) h'
  | @cons text between element elements stands _ ih =>
    have ahead : Ahead [] (c :: rest) := .ends (by simp) (by simpa using ends)
    have ahead := ahead.append between
    rw [List.append_nil] at ahead
    rw [List.append_assoc]
    exact .cons (stands.of_ahead ahead) ih

theorem exists_of_readContent {line column : Nat} {done found : List Lexeme} {cs : List Char}
    (h : readContent line column done cs = .ok found) (one_line : '\n' ∉ cs) :
    ∃ elements, Splits cs elements := by
  fun_induction readContent line column done cs with
  | case1 column done => exact ⟨[], .nil⟩
  | case2 column done c cs fault wrong => cases h
  | case3 column done c cs element more read ih =>
    have beyond : '\n' ∉ cs := fun mem => one_line (List.mem_cons_of_mem c mem)
    obtain ⟨elements, splits⟩ := ih h fun mem => beyond (List.mem_of_mem_drop mem)
    have stands := Element.stands_of_read read fun _ mem => beyond (List.mem_of_mem_take mem)
    refine ⟨element :: elements, ?_⟩
    rw [← List.take_append_drop more cs]
    exact .cons stands splits

theorem exists_of_lexemes {trim : Bool} {number : Nat} {line : Line} {found : List Lexeme}
    (h : line.lexemes trim number = .ok found) (one_line : '\n' ∉ line.content) :
    ∃ elements, Splits line.content elements := by
  unfold Line.lexemes at h
  split at h
  · cases h
  · next read => exact exists_of_readContent read one_line

/-- A line splits with its terminator, which may begin with a carriage return. -/
theorem exists_of_ended (h : Splits (Line.ended before).content elements)
    (h' : Splits rest others) : ∃ elements, Splits (before ++ '\n' :: rest) elements := by
  rw [Line.ended] at h
  split at h
  · next last =>
    obtain ⟨init, rfl⟩ := List.getLast?_eq_some_iff.1 (beq_iff_eq.1 last)
    rw [List.dropLast_concat] at h
    have feed := Splits.nil.append_break (.inl rfl) h'
    rw [List.append_assoc]
    exact ⟨_, h.append_break (.inr rfl) feed⟩
  · exact ⟨_, h.append_break (.inl rfl) h'⟩

end Splits

end Token

/-- A text that is delivered to its end splits into elements. -/
theorem Tokenizer.exists_splits_of_drain {trim : Bool} {cs : List Char} {line : Nat}
    {found : List Lexeme} (h : drain ⟨trim, cs, line, []⟩ = (found, none)) :
    ∃ elements, Token.Splits cs elements := by
  induction cs using Line.induction_lines '\n' generalizing line found with
  | last cs one_line =>
    rw [drain_last one_line] at h
    cases read : Line.lexemes trim line ⟨cs, []⟩ with
    | error e =>
      rw [read] at h
      cases h
    | ok found => exact Token.Splits.exists_of_lexemes read one_line
  | line before rest one_line ih =>
    rw [drain_line one_line] at h
    cases read : (Line.ended before).lexemes trim line with
    | error e =>
      rw [read] at h
      cases h
    | ok here =>
      rw [read] at h
      obtain ⟨-, stopped⟩ := Prod.mk.inj h
      obtain ⟨others, beyond⟩ := ih (Prod.ext rfl stopped)
      obtain ⟨elements, inside⟩ :=
        Token.Splits.exists_of_lexemes read (Line.newline_not_mem_ended one_line)
      exact inside.exists_of_ended beyond

/-! ## Respelling markers

A marker can be spelled in many ways: its keyword in any case, with blanks around its argument, its
condition with other blanks and its flags in another case, and the end of a block with the name of
the block or without. Text stays as it is. Main statement: a text with its markers respelled is
delivered as the same tokens, up to conditions and the names at the ends of blocks,
`Tokenizer.exists_drain_of_respells`.
-/

namespace Token

/-! ### Respelled tokens and texts -/

/-- The names of the blocks that are open after a token, innermost first, when `names` are those
before it. -/
def openAfter (names : List String) : Token → List String
  | .beginBlock name => name :: names
  | .endBlock _ => names.tail
  | _ => names

inductive Respelled (names : List String) : Token → Token → Prop
  | refl (token : Token) : Respelled names token token
  | ifCond {condition other : String} : Condition.Respelled condition other →
    Respelled names (.ifCond condition) (.ifCond other)
  | elseIf {condition other : String} : Condition.Respelled condition other →
    Respelled names (.elseIf condition) (.elseIf other)
  | unnamed {name : String} : Respelled names (.endBlock (some name)) (.endBlock none)
  | named {name : String} : names.head? = some name →
    Respelled names (.endBlock none) (.endBlock (some name))

/-- The second text is the first one with some of its markers respelled. The names are those of the
blocks that are open where the texts begin, innermost first. -/
inductive Respells : (names : List String) → List Char → List Char → Prop
  | nil (names : List String) : Respells names [] []
  /-- A character, with the backslash before it if it is escaped, or a variable. -/
  | same {names : List String} {c : Char} {more rest other : List Char} {element : Element} :
    Element.read c (more ++ rest) = .ok (element, more.length) → element.isMarker = false →
    Respells names rest other → Respells names (c :: more ++ rest) (c :: more ++ other)
  | marker {names : List String} {token token' : Token} {text text' rest other : List Char} :
    token.IsWritten text → token'.IsWritten text' → token.Respelled names token' →
    Respells (token.openAfter names) rest other → Respells names (text ++ rest) (text' ++ other)

/-! ### The elements of a respelled text -/

namespace Element

def openAfter (names : List String) : Element → List String
  | literal _ => names
  | marked token => token.openAfter names

inductive Respelled (names : List String) : Element → Element → Prop
  | literal (c : Char) : Respelled names (literal c) (literal c)
  | marked {token token' : Token} : token.Respelled names token' →
    Respelled names (marked token) (marked token')

theorem Respelled.refl (names : List String) (element : Element) :
    Respelled names element element := by
  cases element with
  | literal c => exact .literal c
  | marked token => exact .marked (.refl token)

theorem openAfter_of_plain {element : Element} (plain : element.isMarker = false)
    (names : List String) : element.openAfter names = names := by
  cases element with
  | literal c => rfl
  | marked token => cases token <;> first | rfl | cases plain

end Element

namespace Respells

variable {names : List String} {cs cs' : List Char}

theorem ahead (h : Respells names cs cs') : Ahead cs cs' := by
  induction h with
  | nil names => exact .refl []
  | same _ _ _ ih => exact ih.append _
  | marker written written' _ _ ih =>
    obtain ⟨more, rfl, -⟩ := written.read []
    obtain ⟨more', rfl, -⟩ := written'.read []
    exact .bracket _ _

/-- Both texts split into elements, which are the same up to the spelling of markers. -/
theorem exists_splits (h : Respells names cs cs') :
    ∃ elements elements', Splits cs elements ∧ Splits cs' elements' ∧
      Along Element.openAfter Element.Respelled names elements elements' := by
  induction h with
  | nil names => exact ⟨[], [], .nil, .nil, .nil names⟩
  | @same names c more rest other element read plain onward ih =>
    obtain ⟨elements, elements', splits, splits', alike⟩ := ih
    have stands := Element.stands_of_read read (by simp [plain])
    rw [List.drop_left, List.take_left] at stands
    refine ⟨element :: elements, element :: elements', .cons stands splits,
      .cons (stands.of_ahead onward.ahead) splits', .cons (.refl names element) ?_⟩
    rwa [Element.openAfter_of_plain plain]
  | marker written written' respelled _ ih =>
    obtain ⟨elements, elements', splits, splits', alike⟩ := ih
    exact ⟨_, _, .cons (.marker written) splits, .cons (.marker written') splits',
      .cons (.marked respelled) alike⟩

end Respells

theorem Splits.respells {cs : List Char} {elements : List Element} (h : Splits cs elements)
    (names : List String) : Respells names cs cs := by
  induction h generalizing names with
  | nil => exact .nil names
  | @cons text rest element elements stands _ ih =>
    have same (plain : element.isMarker = false) :
        Respells names (text ++ rest) (text ++ rest) := by
      obtain ⟨c, more, rfl, read⟩ := stands.read
      exact .same read plain (ih names)
    cases stands with
    | marker written => exact .marker written written (.refl _) (ih _)
    | escaped | single | var => exact same rfl

/-- A text that is delivered to its end is a respelling of itself: no way to write a marker is left
out. -/
theorem respells_of_drain {trim : Bool} {text : String} {found : List Lexeme}
    (h : (Tokenizer.ofText trim text).drain = (found, none)) :
    Respells [] text.toList text.toList := by
  obtain ⟨elements, splits⟩ := Tokenizer.exists_splits_of_drain h
  exact splits.respells []

/-! ### The tokens of respelled elements -/

theorem along_literal_cons {names : List String} {tokens tokens' : List Token} (c : Char)
    (h : Along openAfter Respelled names tokens tokens') :
    Along openAfter Respelled names ((Element.literal c).cons tokens)
      ((Element.literal c).cons tokens') := by
  cases h with
  | nil => exact .cons (.refl _) (.nil _)
  | @cons _ token _ _ _ related onward =>
    cases related with
    | refl =>
      cases token with
      | text content =>
        simp only [Element.cons]
        split
        · exact .cons (.refl _) (.cons (.refl _) onward)
        · exact .cons (.refl _) onward
      | _ => exact .cons (.refl _) (.cons (.refl _) onward)
    | ifCond same => exact .cons (.refl _) (.cons (.ifCond same) onward)
    | elseIf same => exact .cons (.refl _) (.cons (.elseIf same) onward)
    | unnamed => exact .cons (.refl _) (.cons .unnamed onward)
    | named here => exact .cons (.refl _) (.cons (.named here) onward)

theorem along_foldr {names : List String} {elements elements' : List Element}
    (h : Along Element.openAfter Element.Respelled names elements elements') :
    Along openAfter Respelled names (elements.foldr Element.cons [])
      (elements'.foldr Element.cons []) := by
  induction h with
  | nil names => exact .nil names
  | cons related _ ih =>
    cases related with
    | literal c => exact along_literal_cons c ih
    | marked respelled => exact .cons respelled ih

theorem literal_mem_iff {names : List String} {elements elements' : List Element}
    (h : Along Element.openAfter Element.Respelled names elements elements') (c : Char) :
    .literal c ∈ elements' ↔ .literal c ∈ elements := by
  induction h with
  | nil => rfl
  | cons related _ ih =>
    rw [List.mem_cons, List.mem_cons, ih]
    cases related with
    | literal d => rfl
    | marked respelled => simp

theorem foldl_openAfter_elements (names : List String) (tokens : List Token) :
    (tokens.flatMap elements).foldl Element.openAfter names = tokens.foldl openAfter names := by
  induction tokens generalizing names with
  | nil => rfl
  | cons token tokens ih =>
    have here : token.elements.foldl Element.openAfter names = token.openAfter names := by
      cases token with
      | text content =>
        rw [elements, List.foldl_map]
        exact List.foldl_fixed' (fun _ => rfl) content.toList
      | _ => rfl
    rw [List.flatMap_cons, List.foldl_append, here, ih, List.foldl_cons]

end Token

/-! ### The lexemes of respelled elements -/

namespace Lexeme

def openAfter (names : List String) (l : Lexeme) : List String :=
  l.token.openAfter names

def Respelled (names : List String) (l l' : Lexeme) : Prop :=
  l.token.Respelled names l'.token

theorem openAfter_of_isText {l : Lexeme} (h : l.isText = true) (names : List String) :
    l.openAfter names = names := by
  obtain ⟨token, position, raw⟩ := l
  cases token <;> first | rfl | cases h

variable {names : List String} {l l' : Lexeme} {ls ls' : List Lexeme}

theorem Respelled.isText_eq (h : l.Respelled names l') : l.isText = l'.isText := by
  obtain ⟨token, position, raw⟩ := l
  obtain ⟨token', position', raw'⟩ := l'
  cases h <;> rfl

theorem Respelled.isMarker_eq (h : l.Respelled names l') :
    l.token.isMarker = l'.token.isMarker := by
  obtain ⟨token, position, raw⟩ := l
  obtain ⟨token', position', raw'⟩ := l'
  cases h <;> rfl

theorem Respelled.isMarkerOrBlank_eq (h : l.Respelled names l') (isBlank : Char → Bool) :
    l.isMarkerOrBlank isBlank = l'.isMarkerOrBlank isBlank := by
  obtain ⟨token, position, raw⟩ := l
  obtain ⟨token', position', raw'⟩ := l'
  cases h <;> rfl

/-- Whether a line is one of markers does not depend on their spelling. -/
theorem isMarkerLine_eq (h : Along openAfter Respelled names ls ls') :
    Line.isMarkerLine ls = Line.isMarkerLine ls' := by
  have markers := h.map_eq (f := (·.token.isMarker)) fun _ _ _ same => same.isMarker_eq
  have stand := h.map_eq (f := isMarkerOrBlank Text.isBlank)
    fun _ _ _ same => same.isMarkerOrBlank_eq _
  have any (ls : List Lexeme) : ls.any (·.token.isMarker) =
      (ls.map (·.token.isMarker)).any id := by rw [List.any_map]; rfl
  have all (ls : List Lexeme) : ls.all (isMarkerOrBlank Text.isBlank) =
      (ls.map (isMarkerOrBlank Text.isBlank)).all id := by rw [List.all_map]; rfl
  rw [Line.isMarkerLine, Line.isMarkerLine, any, any, all, all, markers, stand]

def kept (trim : Bool) (ls : List Lexeme) : List Lexeme :=
  ls.filter fun l => !(trim && (l.isText && Line.isMarkerLine ls))

theorem along_kept (trim : Bool) (h : Along openAfter Respelled names ls ls') :
    Along openAfter Respelled names (kept trim ls) (kept trim ls') := by
  rw [kept, kept, isMarkerLine_eq h]
  refine h.filter (fun _ _ _ same => by rw [Respelled.isText_eq same]) fun names l dropped => ?_
  simp only [Bool.not_eq_false', Bool.and_eq_true] at dropped
  exact openAfter_of_isText dropped.2.1 names

theorem foldl_kept (trim : Bool) (names : List String) (ls : List Lexeme) :
    (kept trim ls).foldl openAfter names = ls.foldl openAfter names := by
  refine foldl_filter (fun names l dropped => ?_) names ls
  simp only [Bool.not_eq_false', Bool.and_eq_true] at dropped
  exact openAfter_of_isText dropped.2.1 names

end Lexeme

namespace Line

open Token (Element Splits)

theorem lexemes_eq_kept {line : Line} (blank : ∀ c ∈ line.terminator, Text.isBlank c = true)
    {number : Nat} {found : List Lexeme} (read : line.lexemes false number = .ok found)
    (trim : Bool) : line.lexemes trim number = .ok (Lexeme.kept trim found) := by
  cases trim with
  | false => simp [Lexeme.kept, read]
  | true =>
    rw [lexemes_trim blank, read]
    simp only [Except.map, Lexeme.kept, Bool.true_and]

/-- Lexemes are those of some elements: they come down to them, and no text is cut but at the end of
a line. -/
structure Delivers (elements : List Element) (found : List Lexeme) : Prop where
  elements_eq : Lexeme.elements found = elements
  tokens_eq : found.map Lexeme.token = elements.foldr Element.cons []

theorem delivers_of_normal {elements : List Element} {found : List Lexeme}
    (same : Lexeme.elements found = elements)
    (normal : Token.Normal (found.map Lexeme.token)) : Delivers elements found := by
  refine ⟨same, ?_⟩
  rw [← normal.foldr_elements, List.flatMap_map]
  exact congrArg (List.foldr Element.cons []) same

theorem exists_delivers_last {elements : List Element} {cs : List Char} (h : Splits cs elements)
    (one_line : '\n' ∉ cs) (number : Nat) :
    ∃ found, lexemes false number ⟨cs, []⟩ = .ok found ∧ Delivers elements found := by
  obtain ⟨found, read, same⟩ := exists_lexemes_of_splits h one_line number []
  have normal := (normal_lexemes read one_line (absurd rfl)).1
  exact ⟨found, read, delivers_of_normal (same.trans (List.append_nil elements)) normal⟩

theorem exists_delivers_ended {elements : List Element} {cs : List Char} (h : Splits cs elements)
    (one_line : '\n' ∉ cs) (number : Nat) :
    ∃ found, (ended cs).lexemes false number = .ok found ∧
      Delivers (elements ++ [.literal '\n']) found := by
  obtain ⟨found, read, same⟩ := exists_lexemes_ended h one_line number
  have normal := (normal_lexemes read (newline_not_mem_ended one_line) fun _ => isLine_ended cs).1
  exact ⟨found, read, delivers_of_normal same normal⟩

theorem Delivers.foldl_openAfter {elements : List Element} {found : List Lexeme}
    (h : Delivers elements found) (names : List String) :
    found.foldl Lexeme.openAfter names = elements.foldl Element.openAfter names := by
  rw [← h.elements_eq, Lexeme.elements, ← List.flatMap_map, Token.foldl_openAfter_elements,
    List.foldl_map]
  rfl

/-- Respelled elements are delivered as respelled lexemes. -/
theorem Delivers.along {names : List String} {elements elements' : List Element}
    {found found' : List Lexeme} (h : Delivers elements found) (h' : Delivers elements' found')
    (alike : Along Element.openAfter Element.Respelled names elements elements') :
    Along Lexeme.openAfter Lexeme.Respelled names found found' := by
  have tokens : Along Token.openAfter Token.Respelled names (found.map Lexeme.token)
      (found'.map Lexeme.token) := by
    rw [h.tokens_eq, h'.tokens_eq]
    exact Token.along_foldr alike
  exact tokens.of_map

end Line

namespace Tokenizer

open Token (Element Splits)

theorem exists_drain_of_along {names : List String} {elements elements' : List Element}
    (alike : Along Element.openAfter Element.Respelled names elements elements')
    {cs cs' : List Char} (h : Splits cs elements) (h' : Splits cs' elements') (trim : Bool)
    (line : Nat) :
    ∃ found found', drain ⟨trim, cs, line, []⟩ = (found, none) ∧
      drain ⟨trim, cs', line, []⟩ = (found', none) ∧
      Along Lexeme.openAfter Lexeme.Respelled names found found' := by
  induction elements using Line.induction_lines (Element.literal '\n')
    generalizing names elements' cs cs' line with
  | last elements unbroken =>
    have one_line := h.newline_not_mem unbroken
    have one_line' := h'.newline_not_mem (mt (Token.literal_mem_iff alike '\n').1 unbroken)
    obtain ⟨found, read, delivers⟩ := Line.exists_delivers_last h one_line line
    obtain ⟨found', read', delivers'⟩ := Line.exists_delivers_last h' one_line' line
    refine ⟨Lexeme.kept trim found, Lexeme.kept trim found', ?_, ?_,
      Lexeme.along_kept trim (delivers.along delivers' alike)⟩
    · rw [drain_last one_line, Line.lexemes_eq_kept (by simp) read]
    · rw [drain_last one_line', Line.lexemes_eq_kept (by simp) read']
  | line before rest unbroken ih =>
    obtain ⟨before', _, rfl, inside, onward⟩ := alike.exists_of_append
    cases onward with
    | @cons _ _ _ _ rest' related beyond =>
      cases related
      obtain ⟨cs, others, rfl, splits, others_split⟩ := h.cut_feed
      obtain ⟨cs', others', rfl, splits', others_split'⟩ := h'.cut_feed
      have one_line := splits.newline_not_mem unbroken
      have one_line' := splits'.newline_not_mem (mt (Token.literal_mem_iff inside '\n').1 unbroken)
      obtain ⟨found, read, delivers⟩ := Line.exists_delivers_ended splits one_line line
      obtain ⟨found', read', delivers'⟩ := Line.exists_delivers_ended splits' one_line' line
      obtain ⟨later, later', drained, drained', alike'⟩ :=
        ih beyond others_split others_split' (line + 1)
      have feed : Along Element.openAfter Element.Respelled (before.foldl Element.openAfter names)
          [Element.literal '\n'] [Element.literal '\n'] := .cons (.literal '\n') (.nil _)
      refine ⟨Lexeme.kept trim found ++ later, Lexeme.kept trim found' ++ later', ?_, ?_, ?_⟩
      · rw [drain_line one_line, Line.lexemes_eq_kept (Line.blank_of_ended cs) read, drained]
      · rw [drain_line one_line', Line.lexemes_eq_kept (Line.blank_of_ended cs') read', drained']
      · refine (Lexeme.along_kept trim (delivers.along delivers' (inside.append feed))).append ?_
        rw [Lexeme.foldl_kept, delivers.foldl_openAfter, List.foldl_append]
        exact alike'

/-- A text with its markers respelled is delivered as the same tokens, up to their spelling. -/
theorem exists_drain_of_respells {source other : String}
    (h : Token.Respells [] source.toList other.toList) (trim : Bool) :
    ∃ found found', (ofText trim source).drain = (found, none) ∧
      (ofText trim other).drain = (found', none) ∧
      Along Lexeme.openAfter Lexeme.Respelled [] found found' := by
  obtain ⟨elements, elements', splits, splits', alike⟩ := h.exists_splits
  exact exists_drain_of_along alike splits splits' trim 1

end Tokenizer

end Stencil
