import Mathlib.Data.List.Nodup
import Stencil.Model

/-! # Well-formed models

What the numbers in a model refer to.
-/

/-! ## Numberings as lists

A numbering seen as the list of its keys. The list has no duplicates, the number of a key is its
place in the list, and inserting keys leaves each one where it first stands.
-/

namespace Stencil

theorem eraseDups_of_nodup {α : Type} [BEq α] [LawfulBEq α] {l : List α} (h : l.Nodup) :
    l.eraseDups = l := by
  induction l with
  | nil => rfl
  | cons a l ih =>
    obtain ⟨fresh, distinct⟩ := List.nodup_cons.1 h
    have others : (l.filter fun b => !b == a) = l := by
      rw [List.filter_eq_self]
      intro b mem
      have differs : b ≠ a := fun same => fresh (same ▸ mem)
      simpa using differs
    rw [List.eraseDups_cons, others, ih distinct]

/-- Renaming by a function that keeps the members of a list apart. -/
theorem eraseDups_map {α β : Type} [BEq α] [LawfulBEq α] [BEq β] [LawfulBEq β] {f : α → β}
    {l : List α} (apart : ∀ a ∈ l, ∀ b ∈ l, f a = f b → a = b) :
    (l.map f).eraseDups = l.eraseDups.map f := by
  induction hlength : l.length using Nat.strongRecOn generalizing l with
  | ind length ih =>
    cases l with
    | nil => rfl
    | cons a l =>
      have shorter : (l.filter fun b => !b == a).length < length := by
        have := List.length_filter_le (fun b => !b == a) l
        simp only [List.length_cons] at hlength
        omega
      have others : (l.map f).filter (fun b => !b == f a) = (l.filter fun b => !b == a).map f := by
        rw [List.filter_map]
        congr 1
        apply List.filter_congr
        intro b mem
        have same : f b = f a ↔ b = a :=
          ⟨apart b (List.mem_cons_of_mem a mem) a List.mem_cons_self, congrArg f⟩
        simp [same]
      rw [List.map_cons, List.eraseDups_cons, others, ih _ shorter ?_ rfl, List.eraseDups_cons,
        List.map_cons]
      intro b hb c hc
      exact apart b (List.mem_cons_of_mem a (List.mem_filter.1 hb).1) c
        (List.mem_cons_of_mem a (List.mem_filter.1 hc).1)

namespace Numbering

variable {α : Type} [Ord α] [Std.TransOrd α]

theorem getElem?_toList (t : Numbering α) (number : Nat) : t.toList[number]? = t.get? number := by
  simp [toList, get?]

theorem length_toList (t : Numbering α) : t.toList.length = t.size := by
  simp [toList, size]

theorem mem_toList {t : Numbering α} {key : α} : key ∈ t.toList ↔ ∃ i, t.find? key = some i := by
  rw [List.mem_iff_getElem?]
  simp only [getElem?_toList, find?_eq_some_iff]

theorem find?_eq_none_iff {t : Numbering α} {key : α} : t.find? key = none ↔ key ∉ t.toList := by
  rw [mem_toList, Option.eq_none_iff_forall_ne_some, not_exists]

theorem lt_size_of_find? {t : Numbering α} {key : α} {number : Nat}
    (h : t.find? key = some number) : number < t.size := by
  have found := find?_eq_some_iff.1 h
  exact (Array.getElem?_eq_some_iff.1 found).1

theorem nodup_toList (t : Numbering α) : t.toList.Nodup := by
  rw [List.nodup_iff_getElem?_ne_getElem?]
  intro i j before bound same
  have there : t.toList[j]? = some t.toList[j] := List.getElem?_eq_getElem bound
  have second : t.find? t.toList[j] = some j := by
    rwa [find?_eq_some_iff, ← getElem?_toList]
  have first : t.find? t.toList[j] = some i := by
    rwa [find?_eq_some_iff, ← getElem?_toList, same]
  rw [first, Option.some.injEq] at second
  omega

theorem idxOf_toList [BEq α] [LawfulBEq α] {t : Numbering α} {key : α} {number : Nat}
    (h : t.find? key = some number) : t.toList.idxOf key = number := by
  have there := List.getElem?_idxOf (mem_toList.2 ⟨number, h⟩)
  rw [getElem?_toList, ← find?_eq_some_iff, h] at there
  exact (Option.some.inj there).symm

theorem find?_eq_idxOf? [BEq α] [LawfulBEq α] (t : Numbering α) (key : α) :
    t.find? key = t.toList.idxOf? key := by
  cases found : t.find? key with
  | none => exact (List.idxOf?_eq_none_iff.2 (find?_eq_none_iff.1 found)).symm
  | some number =>
    have present : (t.toList.idxOf? key).isSome := by
      rw [List.isSome_idxOf?]
      exact mem_toList.2 ⟨number, found⟩
    obtain ⟨place, hplace⟩ := Option.isSome_iff_exists.1 present
    have same : t.toList.idxOf key = place := by rw [List.idxOf_eq_getD_idxOf?, hplace]; rfl
    rw [hplace, ← same, idxOf_toList found]

section Insert

variable [Std.LawfulEqOrd α]

theorem toList_insert_of_mem {t : Numbering α} {key : α} (h : key ∈ t.toList) :
    (t.insert key).toList = t.toList := by
  have old : t.find? key ≠ none := fun none => find?_eq_none_iff.1 none h
  rw [insert, dif_neg old]

theorem toList_insert_of_not_mem {t : Numbering α} {key : α} (h : key ∉ t.toList) :
    (t.insert key).toList = t.toList ++ [key] := by
  rw [insert, dif_pos (find?_eq_none_iff.2 h)]
  simp [push, toList]

theorem toList_foldl_insert [BEq α] [LawfulBEq α] (t : Numbering α) (keys : List α) :
    (keys.foldl insert t).toList = (t.toList ++ keys).eraseDups := by
  induction keys generalizing t with
  | nil => simp [eraseDups_of_nodup t.nodup_toList]
  | cons key keys ih =>
    rw [List.foldl_cons, ih]
    by_cases old : key ∈ t.toList
    · rw [toList_insert_of_mem old, List.eraseDups_append, List.eraseDups_append]
      simp [List.removeAll, old]
    · rw [toList_insert_of_not_mem old, List.append_assoc, List.singleton_append]

/-- Keys keep their numbers when others are inserted. -/
theorem find?_insert {t : Numbering α} {key : α} {number : Nat} (h : t.find? key = some number)
    (other : α) : (t.insert other).find? key = some number := by
  rw [find?_eq_some_iff, ← getElem?_toList] at h ⊢
  by_cases old : other ∈ t.toList
  · rw [toList_insert_of_mem old, h]
  · have bound := (List.getElem?_eq_some_iff.1 h).1
    rw [toList_insert_of_not_mem old, List.getElem?_append_left bound, h]

theorem find?_foldl_insert {t : Numbering α} {key : α} {number : Nat}
    (h : t.find? key = some number) (others : List α) :
    (others.foldl insert t).find? key = some number := by
  induction others generalizing t with
  | nil => exact h
  | cons other others ih => exact ih (find?_insert h other)

theorem exists_find?_insert (t : Numbering α) (key : α) :
    ∃ number, (t.insert key).find? key = some number := by
  rw [← mem_toList]
  by_cases old : key ∈ t.toList
  · rwa [toList_insert_of_mem old]
  · simp [toList_insert_of_not_mem old]

end Insert

end Numbering

/-! ## What the numbers refer to

What bindings and evaluation rely on when they follow the numbers and slots of a model.
-/

namespace Node

def block? : Node → Option Nat
  | .block id => some id
  | _ => none

def var? : Node → Option Nat
  | .var index _ => some index
  | _ => none

def isLiteral : Node → Bool
  | .literal _ => true
  | _ => false

end Node

namespace Model

variable {m : Model}

/-- Block `outer` is a proper ancestor of block `inner`. -/
inductive Encloses (m : Model) (outer : Nat) : Nat → Prop
  | parent {inner : Nat} (h : (m.block inner).parent = some outer) : m.Encloses outer inner
  | above {middle inner : Nat} (h : (m.block inner).parent = some middle)
      (further : m.Encloses outer middle) : m.Encloses outer inner

def named (m : Model) (name : String) : List Nat :=
  (List.range m.blockCount).filter fun id => id ≠ root ∧ (m.block id).name = name

/-- Everything in a model is where the numbers and slots say. -/
structure WellFormed (m : Model) : Prop where
  root_name : (m.block root).name = ""
  root_parent : (m.block root).parent = none
  /-- Every other block stands in an earlier one. -/
  parent : ∀ id, id ≠ root → id < m.blockCount →
    ∃ outer, outer < id ∧ (m.block id).parent = some outer ∧ .block id ∈ (m.block outer).body
  /-- A block has one place among all children, the slot in its parent. -/
  place : ∀ id, id ≠ root → id < m.blockCount → ∀ outer slot : Nat,
    (m.block outer).children[slot]? = some id ↔
      (m.block id).parent = some outer ∧ (m.block id).slot = slot
  occurs_once : ∀ id, id ≠ root → id < m.blockCount →
    (m.blocks.toList.flatMap fun b => b.body.toList).count (.block id) = 1
  /-- The children of a block are the blocks of its body. -/
  children : ∀ id, id < m.blockCount →
    (m.block id).body.toList.filterMap Node.block? = (m.block id).children.toList
  /-- The variables of a block are those of its body by first use. -/
  blockVars : ∀ id, id < m.blockCount →
    (m.block id).vars.toList.Nodup ∧
      (m.block id).vars.toList = ((m.block id).body.toList.filterMap Node.var?).eraseDups
  slots : ∀ id index slot, .var index slot ∈ (m.block id).body →
    (m.block id).vars.get? slot = some index ∧ index < m.variableCount
  vars_nodup : m.vars.toList.Nodup
  used : ∀ index, index < m.variableCount →
    ∃ id slot, id < m.blockCount ∧ .var index slot ∈ (m.block id).body
  findVariable : ∀ name index, m.findVariable? name = some index ↔ m.vars.get? index = some name
  labels : ∀ name, (m.labels[name]?).map List.reverse =
    if m.named name = [] then none else some (m.named name)
  /-- Blocks of one name never nest. -/
  apart : ∀ outer inner, m.Encloses outer inner → (m.block outer).name ≠ (m.block inner).name
  literal_ne : ∀ id text, .literal text ∈ (m.block id).body → text ≠ ""
  /-- No two literals stand side by side. -/
  literals : ∀ id, (m.block id).body.toList.IsChain fun first second =>
    ¬(first.isLiteral = true ∧ second.isLiteral = true)

theorem encloses_iff {outer parent id : Nat} (above : (m.block id).parent = some parent) :
    m.Encloses outer id ↔ outer = parent ∨ m.Encloses outer parent := by
  constructor
  · intro h
    cases h with
    | parent h =>
      rw [above, Option.some.injEq] at h
      exact .inl h.symm
    | above h further =>
      rw [above, Option.some.injEq] at h
      subst h
      exact .inr further
  · rintro (rfl | further)
    · exact .parent above
    · exact .above above further

theorem not_encloses {outer id : Nat} (top : (m.block id).parent = none) :
    ¬m.Encloses outer id := by
  intro h
  cases h with
  | parent above => simp [top] at above
  | above above _ => simp [top] at above

theorem named_eq_blocksNamed (m : Model) (name : String) : m.named name = m.blocksNamed name := by
  rw [blocksNamed_eq, named]
  apply List.filter_congr
  intro id _
  rw [Bool.eq_iff_iff, decide_eq_true_iff, Block.isNamed]
  simp [root, block]

theorem labels_eq_named (m : Model) (name : String) :
    (m.labels[name]?).map List.reverse =
      if m.named name = [] then none else some (m.named name) := by
  rw [named_eq_blocksNamed, blocksNamed]
  cases found : m.labels[name]? with
  | none => rfl
  | some ids =>
    have filled : ids ≠ [] := ((m.labelled name ids).1 found).1
    simp [filled]

theorem block_of_le {id : Nat} (h : m.blockCount ≤ id) : m.block id = {} := by
  rw [block, Array.getElem?_eq_none h]
  rfl

theorem WellFormed.child_bounds (wf : m.WellFormed) {outer slot id : Nat}
    (child : (m.block outer).children[slot]? = some id) : outer < id ∧ id < m.blockCount := by
  by_cases bound : outer < m.blockCount
  · have mem : id ∈ (m.block outer).children.toList := by
      rw [← Array.getElem?_toList] at child
      exact List.mem_of_getElem? child
    rw [← wf.children outer bound, List.mem_filterMap] at mem
    obtain ⟨node, there, same⟩ := mem
    cases node with
    | block other =>
      cases same
      exact lt_of_block_mem (Array.mem_toList_iff.1 there)
    | literal text => cases same
    | var index slot => cases same
  · rw [block_of_le (Nat.le_of_not_lt bound)] at child
    cases child

theorem WellFormed.child_place (wf : m.WellFormed) {outer slot id : Nat}
    (child : (m.block outer).children[slot]? = some id) :
    (m.block id).parent = some outer ∧ (m.block id).slot = slot := by
  obtain ⟨later, bound⟩ := wf.child_bounds child
  have below : id ≠ root := Nat.ne_zero_of_lt later
  exact (wf.place id below bound outer slot).1 child

/-- A block that stands in another is a block of the model, and not the template itself. -/
theorem WellFormed.bounds_of_parent (wf : m.WellFormed) {outer id : Nat}
    (above : (m.block id).parent = some outer) : id ≠ root ∧ id < m.blockCount := by
  constructor
  · rintro rfl
    rw [wf.root_parent] at above
    cases above
  · refine Nat.lt_of_not_le fun beyond => ?_
    rw [block_of_le beyond] at above
    cases above

theorem WellFormed.mem_children_iff (wf : m.WellFormed) {outer id : Nat} :
    id ∈ (m.block outer).children ↔ (m.block id).parent = some outer := by
  constructor
  · intro mem
    obtain ⟨slot, place⟩ := Array.mem_iff_getElem?.1 mem
    exact (wf.child_place place).1
  · intro above
    obtain ⟨top, bound⟩ := wf.bounds_of_parent above
    exact Array.mem_of_getElem? ((wf.place id top bound outer _).2 ⟨above, rfl⟩)

theorem WellFormed.not_child (wf : m.WellFormed) {id parent other : Nat}
    (above : (m.block id).parent = some parent) (apart : parent ≠ other) :
    id ∉ (m.block other).children := by
  intro mem
  rw [wf.mem_children_iff, above, Option.some.injEq] at mem
  exact apart mem

theorem WellFormed.place_of_mem (wf : m.WellFormed) {outer id : Nat}
    (mem : .block id ∈ (m.block outer).body) :
    (m.block outer).children[(m.block id).slot]? = some id := by
  obtain ⟨before, inside⟩ := lt_of_block_mem mem
  have child : id ∈ (m.block outer).children.toList := by
    rw [← wf.children outer (Nat.lt_trans before inside)]
    exact List.mem_filterMap.2 ⟨_, Array.mem_toList_iff.2 mem, rfl⟩
  obtain ⟨slot, place⟩ := Array.mem_iff_getElem?.1 (Array.mem_toList_iff.1 child)
  rw [(wf.child_place place).2, place]

end Model

end Stencil
