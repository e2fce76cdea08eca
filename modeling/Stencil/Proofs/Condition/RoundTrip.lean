import Stencil.Proofs.Condition.Derivation

/-! # Writing conditions and reading them again

A condition that is written is derived with the parentheses it is written with, and no derivation of
it nests less. So it is read again as the same tree, or it nests too deep for any text of it. Main
statement: `parse_print`.
-/

namespace Stencil.Condition

/-- The conditions that can be written: the names of flags are names, and a chain has two terms or
more. -/
inductive Legible : Condition → Prop
  | flag {name : String} : Name.isValid name.toList = true → Legible (.flag name)
  | not {inner : Condition} : Legible inner → Legible (.not inner)
  | chain {operator : Operator} {terms : List Condition} : 2 ≤ terms.length →
    (∀ c ∈ terms, Legible c) → Legible (operator.join terms)

/-! ## Places and ranks -/

/-- A place where the parts of a rank, and no others, stand without parentheses. -/
def Rank.place : Rank → Place
  | unary => .negated
  | chain .both => .inDisjunction
  | chain .either => .alone

def Operator.place : Operator → Place
  | both => .inConjunction
  | either => .inDisjunction

def tokensAt (rank : Rank) (c : Condition) : List Token :=
  enclose (needsParentheses rank.place c) c.toTokens

def depthsAt (rank : Rank) (c : Condition) : List Nat :=
  enclosed (needsParentheses rank.place c) c.depths

theorem needsParentheses_place (operator : Operator) (c : Condition) :
    needsParentheses operator.place c = needsParentheses operator.member.place c := by
  cases operator <;> cases c <;> rfl

theorem toTokens_join (operator : Operator) (terms : List Condition) :
    (operator.join terms).toTokens = termTokens operator.token operator.place terms := by
  cases operator <;> rfl

theorem depths_join (operator : Operator) (terms : List Condition) :
    (operator.join terms).depths = termDepths operator.place terms := by
  cases operator <;> rfl

/-- A chain stands without parentheses for a chain. -/
theorem needsParentheses_join (operator : Operator) (terms : List Condition) :
    needsParentheses (Rank.chain operator).place (operator.join terms) = false := by
  cases operator <;> rfl

/-! ## Derivations of what is written -/

namespace Derivation

def Named : {rank : Rank} → Derivation rank → Prop
  | _, flag name => Name.isValid name.toList = true
  | _, not inner => inner.Named
  | _, group inner => inner.Named
  | _, single only => only.Named
  | _, more first rest => first.Named ∧ rest.Named

/-- A derivation of a condition with some tokens, in which the flags stand at some depths. -/
structure Writes (c : Condition) (tokens : List Token) (depths : List Nat) {rank : Rank}
    (d : Derivation rank) : Prop where
  tokens_eq : d.tokens = tokens
  condition_eq : d.condition = c
  named : d.Named
  deepest : d.nesting ∈ depths
  bounded : ∀ n ∈ depths, n ≤ d.nesting

namespace Writes

variable {c : Condition} {tokens : List Token} {depths : List Nat}

theorem single {operator : Operator} {d : Derivation operator.member}
    (writes : d.Writes c tokens depths) : (Derivation.single d).Writes c tokens depths :=
  ⟨writes.tokens_eq, writes.condition_eq, writes.named, writes.deepest, writes.bounded⟩

theorem group {d : Derivation (.chain .either)} (writes : d.Writes c tokens depths) :
    (Derivation.group d).Writes c (enclose true tokens) (enclosed true depths) where
  tokens_eq := by
    rw [Derivation.tokens, writes.tokens_eq]
    rfl
  condition_eq := writes.condition_eq
  named := writes.named
  deepest := List.mem_map_of_mem writes.deepest
  bounded := List.forall_mem_map.2 fun n mem => Nat.succ_le_succ (writes.bounded n mem)

theorem not {d : Derivation .unary} (writes : d.Writes c tokens depths) :
    (Derivation.not d).Writes (.not c) (.bang :: tokens) (depths.map (· + 1)) where
  tokens_eq := congrArg (Token.bang :: ·) writes.tokens_eq
  condition_eq := congrArg Condition.not writes.condition_eq
  named := writes.named
  deepest := List.mem_map_of_mem writes.deepest
  bounded := List.forall_mem_map.2 fun n mem => Nat.succ_le_succ (writes.bounded n mem)

theorem more {operator : Operator} {c' : Condition} {tokens' : List Token} {depths' : List Nat}
    {first : Derivation operator.member} {later : Derivation (.chain operator)}
    (writes : first.Writes c tokens depths) (writes' : later.Writes c' tokens' depths') :
    (Derivation.more first later).Writes (Derivation.more first later).condition
      (tokens ++ operator.token :: tokens') (depths ++ depths') where
  tokens_eq := by rw [Derivation.tokens, writes.tokens_eq, writes'.tokens_eq]
  condition_eq := rfl
  named := ⟨writes.named, writes'.named⟩
  deepest := by
    rw [nesting, List.mem_append]
    rcases Nat.le_total later.nesting first.nesting with le | le
    · rw [Nat.max_eq_left le]
      exact .inl writes.deepest
    · rw [Nat.max_eq_right le]
      exact .inr writes'.deepest
  bounded n mem := by
    rcases List.mem_append.1 mem with mem | mem
    · exact Nat.le_trans (writes.bounded n mem) (Nat.le_max_left _ _)
    · exact Nat.le_trans (writes'.bounded n mem) (Nat.le_max_right _ _)

end Writes

end Derivation

def rank : Condition → Rank
  | flag _ => .unary
  | not _ => .unary
  | and _ => .chain .both
  | or _ => .chain .either

/-- A condition is derived as a part of any rank, in the parentheses that it is written in there. -/
theorem exists_writes_at {c : Condition} {d : Derivation c.rank}
    (writes : d.Writes c c.toTokens c.depths) (rank : Rank) :
    ∃ d : Derivation rank, d.Writes c (tokensAt rank c) (depthsAt rank c) := by
  cases c with
  | flag _ | not _ =>
    rcases rank with _ | _ | _
    · exact ⟨d, writes⟩
    · exact ⟨.single d, writes.single⟩
    · exact ⟨.single (.single d), writes.single.single⟩
  | and _ =>
    rcases rank with _ | _ | _
    · exact ⟨.group (.single d), writes.single.group⟩
    · exact ⟨d, writes⟩
    · exact ⟨.single d, writes.single⟩
  | or _ =>
    rcases rank with _ | _ | _
    · exact ⟨.group d, writes.group⟩
    · exact ⟨.single (.group d), writes.group.single⟩
    · exact ⟨d, writes⟩

/-- Some terms that are derived as members make up a chain. -/
theorem exists_chain_of_terms (operator : Operator) {terms : List Condition} (some : terms ≠ [])
    (members : ∀ c ∈ terms, ∃ d : Derivation operator.member,
      d.Writes c (tokensAt operator.member c) (depthsAt operator.member c)) :
    ∃ d : Derivation (.chain operator), d.meaning = terms ∧
      d.Writes ((Rank.chain operator).condition terms)
        (termTokens operator.token operator.place terms) (termDepths operator.place terms) := by
  induction terms with
  | nil => exact absurd rfl some
  | cons c cs ih =>
    obtain ⟨⟨first, writes⟩, others⟩ := List.forall_mem_cons.1 members
    rw [tokensAt, depthsAt, ← needsParentheses_place] at writes
    cases cs with
    | nil =>
      refine ⟨.single first, congrArg (fun c => [c]) writes.condition_eq, ?_⟩
      rw [termDepths, termDepths, List.append_nil]
      exact writes.single
    | cons c' cs =>
      obtain ⟨later, meaning, writes'⟩ := ih (List.cons_ne_nil _ _) others
      have whole : (Derivation.more first later).meaning = c :: c' :: cs := by
        rw [Derivation.meaning, meaning]
        exact congrArg (· :: c' :: cs) writes.condition_eq
      have together := writes.more writes'
      rw [Derivation.condition, whole] at together
      exact ⟨.more first later, whole, together⟩

/-- A condition that can be written is derived as it is written. -/
theorem Legible.exists_writes {c : Condition} (legible : c.Legible) :
    ∃ d : Derivation c.rank, d.Writes c c.toTokens c.depths := by
  induction legible with
  | @flag name valid =>
    exact ⟨.flag name, rfl, rfl, valid, List.mem_singleton_self 0, by simp [depths]⟩
  | @not inner _ ih =>
    obtain ⟨d, writes⟩ := ih
    obtain ⟨d, writes⟩ := exists_writes_at writes .unary
    exact ⟨.not d, writes.not⟩
  | @chain operator terms several _ ih =>
    have members : ∀ c ∈ terms, ∃ d : Derivation operator.member,
        d.Writes c (tokensAt operator.member c) (depthsAt operator.member c) := by
      intro c mem
      obtain ⟨d, writes⟩ := ih c mem
      exact exists_writes_at writes operator.member
    obtain ⟨d, -, writes⟩ := exists_chain_of_terms operator (by rintro rfl; simp at several) members
    have join : (Rank.chain operator).condition terms = operator.join terms := by
      rcases terms with _ | ⟨c, _ | ⟨c', cs⟩⟩
      · rfl
      · simp at several
      · rfl
    rw [join, ← toTokens_join, ← depths_join] at writes
    cases operator with
    | both => exact ⟨d, writes⟩
    | either => exact ⟨d, writes⟩

/-! ## The text of a derivation -/

theorem Token.Splits.cons (token : Token) {tokens : List Token} {rest : List Char}
    (stands : token.Stands rest) (later : Splits rest tokens) :
    Splits (token.spelling ++ rest) (token :: tokens) :=
  @Splits.token [] rest token tokens nofun stands later

/-- The tokens of a derivation can be written without blanks: no two flags meet. -/
theorem Derivation.splits_spelling {rank : Rank} {d : Derivation rank} (named : d.Named)
    {rest : List Char} {tokens : List Token} (stops : ∀ c ∈ rest.head?, Name.isChar c = false)
    (later : Token.Splits rest tokens) :
    Token.Splits (d.tokens.flatMap Token.spelling ++ rest) (d.tokens ++ tokens) := by
  induction d generalizing rest tokens with
  | flag name =>
    simpa [Derivation.tokens] using Token.Splits.cons (.flag name) ⟨named, stops⟩ later
  | not inner ih =>
    exact Token.Splits.cons .bang trivial (ih named stops later)
  | group inner ih =>
    have after : Token.Splits (')' :: rest) (.closing :: tokens) :=
      Token.Splits.cons .closing trivial later
    have inside := ih named (by simp [Name.isChar]) after
    simpa [Derivation.tokens, Token.spelling] using Token.Splits.cons .opening trivial inside
  | single only ih => exact ih named stops later
  | @more operator first others ihFirst ihOthers =>
    have onward := ihOthers named.2 stops later
    have after : Token.Splits
        (operator.token.spelling ++ (others.tokens.flatMap Token.spelling ++ rest))
        (operator.token :: (others.tokens ++ tokens)) := by
      cases operator <;> exact Token.Splits.cons _ trivial onward
    have here := ihFirst named.1
      (by cases operator <;> simp [Operator.token, Token.spelling, Name.isChar]) after
    simpa [Derivation.tokens] using here

theorem Token.Splits.isValid {cs : List Char} {tokens : List Token} (h : Splits cs tokens) :
    ∀ name, .flag name ∈ tokens → Name.isValid name.toList = true := by
  induction h with
  | blank _ => exact nofun
  | token _ stands _ ih =>
    intro name mem
    rcases List.mem_cons.1 mem with rfl | mem
    · exact stands.1
    · exact ih name mem

theorem Derivation.named_of_tokens {rank : Rank} (d : Derivation rank)
    (h : ∀ name, .flag name ∈ d.tokens → Name.isValid name.toList = true) : d.Named := by
  induction d with
  | flag name => exact h name (List.mem_singleton_self _)
  | not inner ih => exact ih fun name mem => h name (List.mem_cons_of_mem _ mem)
  | group inner ih => exact ih fun name mem => h name (by simp [Derivation.tokens, mem])
  | single only ih => exact ih h
  | more first rest ihFirst ihRest =>
    exact ⟨ihFirst fun name mem => h name (by simp [Derivation.tokens, mem]),
      ihRest fun name mem => h name (by simp [Derivation.tokens, mem])⟩

/-! ## What is derived -/

def Rank.part : Rank → Rank
  | unary => .unary
  | chain operator => operator.member

def Rank.parts : (rank : Rank) → rank.Meaning → List Condition
  | unary, c => [c]
  | chain _, cs => cs

structure Rank.Within (limit : Nat) (rank : Rank) (meaning : rank.Meaning) : Prop where
  some : rank.parts meaning ≠ []
  legible : ∀ c ∈ rank.parts meaning, c.Legible
  bounded : ∀ c ∈ rank.parts meaning, ∀ n ∈ depthsAt rank.part c, n ≤ limit

theorem mem_termDepths {operator : Operator} {terms : List Condition} {n : Nat} :
    n ∈ termDepths operator.place terms ↔ ∃ c ∈ terms, n ∈ depthsAt operator.member c := by
  induction terms with
  | nil => simp [termDepths]
  | cons c cs ih => simp [termDepths, ih, depthsAt, needsParentheses_place]

/-- Parentheses add one level, or none where they are not needed. -/
theorem bounded_enclosed {needed : Bool} {depths : List Nat} {limit : Nat} :
    ((∀ n ∈ enclosed needed depths, n ≤ limit) → ∀ n ∈ depths, n ≤ limit) ∧
      ((∀ n ∈ depths, n ≤ limit) → ∀ n ∈ enclosed needed depths, n ≤ limit + 1) := by
  cases needed with
  | false => exact ⟨id, fun h n mem => Nat.le_succ_of_le (h n mem)⟩
  | true =>
    constructor
    · exact fun h n mem => Nat.le_of_succ_le (h (n + 1) (List.mem_map_of_mem mem))
    · exact fun h => List.forall_mem_map.2 fun n mem => Nat.succ_le_succ (h n mem)

/-- A condition needs no more parentheses as a chain than as a member of one. -/
theorem bounded_chain {operator : Operator} {c : Condition} {limit : Nat}
    (h : ∀ n ∈ depthsAt operator.member c, n ≤ limit) :
    ∀ n ∈ depthsAt (.chain operator) c, n ≤ limit := by
  have needed : needsParentheses (Rank.chain operator).place c = true →
      needsParentheses operator.member.place c = true := by
    cases operator <;> cases c <;> simp [needsParentheses, Rank.place, Operator.member]
  rw [depthsAt] at h ⊢
  cases here : needsParentheses (Rank.chain operator).place c with
  | true =>
    rw [needed here] at h
    exact h
  | false => exact bounded_enclosed.1 h

/-- What parts within a limit make up is within it. -/
theorem Rank.Within.condition {limit : Nat} {rank : Rank} {meaning : rank.Meaning}
    (within : rank.Within limit meaning) :
    (rank.condition meaning).Legible ∧ ∀ n ∈ depthsAt rank (rank.condition meaning), n ≤ limit := by
  cases rank with
  | unary => exact ⟨within.legible _ List.mem_cons_self, within.bounded _ List.mem_cons_self⟩
  | chain operator =>
    rcases meaning with _ | ⟨c, _ | ⟨c', cs⟩⟩
    · exact absurd rfl within.some
    · exact ⟨within.legible _ List.mem_cons_self,
        bounded_chain (within.bounded _ List.mem_cons_self)⟩
    · refine ⟨.chain (Nat.le_add_left 2 cs.length) within.legible, fun n mem => ?_⟩
      change n ∈ depthsAt (.chain operator) (operator.join (c :: c' :: cs)) at mem
      rw [depthsAt, needsParentheses_join, enclosed, if_neg Bool.false_ne_true, depths_join,
        mem_termDepths] at mem
      obtain ⟨part, listed, mem⟩ := mem
      exact within.bounded part listed n mem

/-- A flag stands no deeper where its condition is written than in any derivation of it. -/
theorem Derivation.within {rank : Rank} {d : Derivation rank} (named : d.Named) :
    rank.Within d.nesting d.meaning := by
  induction d with
  | flag name =>
    refine ⟨List.cons_ne_nil _ _, List.forall_mem_singleton.2 (.flag named), ?_⟩
    exact List.forall_mem_singleton.2 (List.forall_mem_singleton.2 (Nat.le_refl 0))
  | not inner ih =>
    obtain ⟨legible, bounded⟩ := (ih named).condition
    refine ⟨List.cons_ne_nil _ _, List.forall_mem_singleton.2 (.not legible),
      List.forall_mem_singleton.2 ?_⟩
    exact List.forall_mem_map.2 fun n mem => Nat.succ_le_succ (bounded n mem)
  | group inner ih =>
    obtain ⟨legible, bounded⟩ := (ih named).condition
    exact ⟨List.cons_ne_nil _ _, List.forall_mem_singleton.2 legible,
      List.forall_mem_singleton.2 (bounded_enclosed.2 (bounded_enclosed.1 bounded))⟩
  | single only ih =>
    obtain ⟨legible, bounded⟩ := (ih named).condition
    exact ⟨List.cons_ne_nil _ _, List.forall_mem_singleton.2 legible,
      List.forall_mem_singleton.2 bounded⟩
  | more first rest ihFirst ihRest =>
    obtain ⟨legible, bounded⟩ := (ihFirst named.1).condition
    have others := ihRest named.2
    refine ⟨List.cons_ne_nil _ _, List.forall_mem_cons.2 ⟨legible, others.legible⟩,
      List.forall_mem_cons.2 ⟨fun n mem => ?_, fun c listed n mem => ?_⟩⟩
    · exact Nat.le_trans (bounded n mem) (Nat.le_max_left _ _)
    · exact Nat.le_trans (others.bounded c listed n mem) (Nat.le_max_right _ _)

/-! ## Reading what is written -/

/-- The text of a condition splits into its derivation as it is written. -/
theorem Legible.exists_written {c : Condition} (legible : c.Legible) :
    ∃ d : Derivation (.chain .either),
      d.Writes c c.toTokens c.depths ∧ Token.Splits c.print.toList d.tokens := by
  obtain ⟨d, writes⟩ := legible.exists_writes
  obtain ⟨d, writes⟩ := exists_writes_at writes (.chain .either)
  have nothing : Token.Splits [] [] := .blank (by simp)
  have spelled := Derivation.splits_spelling writes.named (by simp) nothing
  rw [List.append_nil, List.append_nil, writes.tokens_eq] at spelled
  refine ⟨d, writes, ?_⟩
  rw [print, String.toList_ofList, writes.tokens_eq]
  exact spelled

theorem Legible.parse_print_of_shallow {c : Condition} (legible : c.Legible)
    (shallow : ∀ n ∈ c.depths, n ≤ maxNesting) : parse c.print = .ok c := by
  obtain ⟨d, writes, splits⟩ := legible.exists_written
  exact parse_eq_ok_iff.2 ⟨d, splits, shallow _ writes.deepest, writes.condition_eq⟩

/-- Since there is one derivation of a text, it is the one that nests too deep. -/
theorem Legible.parse_print_of_deep {c : Condition} (legible : c.Legible) {n : Nat}
    (flag : n ∈ c.depths) (deep : maxNesting < n) : ∃ e, parse c.print = .error e := by
  obtain ⟨d, writes, splits⟩ := legible.exists_written
  cases read : parse c.print with
  | error e => exact ⟨e, rfl⟩
  | ok c' =>
    obtain ⟨d', splits', shallow, -⟩ := parse_eq_ok_iff.1 read
    obtain rfl := Derivation.eq_of_tokens_eq (splits.unique splits')
    have bounded := writes.bounded n flag
    omega

/-- A condition that is read can be written, and its flags are not too deep where it is. -/
theorem legible_of_parse {input : String} {c : Condition} (h : parse input = .ok c) :
    c.Legible ∧ ∀ n ∈ c.depths, n ≤ maxNesting := by
  obtain ⟨d, splits, shallow, rfl⟩ := parse_eq_ok_iff.1 h
  obtain ⟨legible, bounded⟩ := (Derivation.within (d.named_of_tokens splits.isValid)).condition
  exact ⟨legible, fun n mem => Nat.le_trans (bounded n mem) shallow⟩

/-- A condition that can be written is read again as the same tree, unless a flag of it stands too
deep. Every condition that is read can be written, with no flag too deep, so it is read again as it
is. -/
theorem parse_print :
    (∀ c : Condition, c.Legible →
      ((∀ n ∈ c.depths, n ≤ maxNesting) → parse c.print = .ok c) ∧
      ((∃ n ∈ c.depths, maxNesting < n) → ∃ e, parse c.print = .error e)) ∧
    ∀ (input : String) (c : Condition), parse input = .ok c →
      c.Legible ∧ (∀ n ∈ c.depths, n ≤ maxNesting) ∧ parse c.print = .ok c := by
  refine ⟨fun c legible => ⟨legible.parse_print_of_shallow, ?_⟩, fun input c read => ?_⟩
  · rintro ⟨n, flag, deep⟩
    exact legible.parse_print_of_deep flag deep
  · obtain ⟨legible, shallow⟩ := legible_of_parse read
    exact ⟨legible, shallow, legible.parse_print_of_shallow shallow⟩

/-- Parentheses of both kinds, and a condition with one negation too many. -/
theorem parse_print_groups :
    (Legible (.or [.or [.flag "a", .flag "b"], .not (.and [.flag "c", .flag "d"])]) ∧
      print (.or [.or [.flag "a", .flag "b"], .not (.and [.flag "c", .flag "d"])]) =
        "(a||b)||!(c&&d)" ∧
      parse "(a||b)||!(c&&d)" =
        .ok (.or [.or [.flag "a", .flag "b"], .not (.and [.flag "c", .flag "d"])]) ∧
      ∀ n ∈ depths (.or [.or [.flag "a", .flag "b"], .not (.and [.flag "c", .flag "d"])]),
        n ≤ maxNesting) ∧
    Legible (Nat.repeat .not 65 (.flag "a")) ∧
      ∃ e, parse (print (Nat.repeat .not 65 (.flag "a"))) = .error e := by
  have name (n : String) (h : Name.isValid n.toList = true) : Legible (.flag n) := .flag h
  have pair (operator : Operator) (c c' : Condition) (h : c.Legible) (h' : c'.Legible) :
      (operator.join [c, c']).Legible :=
    .chain (Nat.le_refl 2) (List.forall_mem_cons.2 ⟨h, List.forall_mem_singleton.2 h'⟩)
  have groups : Legible (.or [.or [.flag "a", .flag "b"], .not (.and [.flag "c", .flag "d"])]) :=
    pair .either _ _ (pair .either _ _ (name "a" rfl) (name "b" rfl))
      (.not (pair .both _ _ (name "c" rfl) (name "d" rfl)))
  have negations (n : Nat) : Legible (Nat.repeat .not n (.flag "a")) := by
    induction n with
    | zero => exact name "a" rfl
    | succ n ih => exact .not ih
  have read : parse "(a||b)||!(c&&d)" = .ok _ := (parse_print.1 _ groups).1 (by decide)
  exact ⟨⟨groups, by decide, read, (parse_print.2 _ _ read).2.1⟩, negations 65,
    (parse_print.1 _ (negations 65)).2 ⟨65, by decide, by decide⟩⟩

end Stencil.Condition
