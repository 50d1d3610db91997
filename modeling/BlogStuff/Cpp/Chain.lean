import Mathlib.Data.List.Basic
import Mathlib.Tactic

/-!
# BlogStuff.Cpp.Chain

Singly linked lists in memory.

The address of a node is its position, and a new node comes behind all others. `Chain` says which
values one meets along the pointers; it lasts when nodes are added (`Chain.append`). `laid` is the
picture of a list that was built by appending at its end, node by node: the pointer of the last
node is set when the next one is there (`laid_concat_concat`).
-/

namespace BlogStuff.Cpp

variable {α : Type}

/-- A node; no address is the null pointer. -/
structure Node (α : Type) where
  val : α
  next : Option Nat
  deriving DecidableEq, Repr

/-- The values along the pointers, from an address on. -/
inductive Chain (nodes : List (Node α)) : Option Nat → List α → Prop
  | nil : Chain nodes none []
  | cons {a : Nat} {v : α} {next : Option Nat} {vs : List α} (hnode : nodes[a]? = some ⟨v, next⟩)
      (htail : Chain nodes next vs) : Chain nodes (some a) (v :: vs)

theorem Chain.append {nodes : List (Node α)} {p : Option Nat} {vs : List α} (h : Chain nodes p vs)
    (more : List (Node α)) : Chain (nodes ++ more) p vs := by
  induction h with
  | nil => exact .nil
  | cons hnode _ ih =>
      have hlt := (List.getElem?_eq_some_iff.mp hnode).1
      exact .cons (by rw [List.getElem?_append_left hlt, hnode]) ih

/-- The address of the first of some nodes that are laid from `base` on. -/
def first (base : Nat) : List α → Option Nat
  | [] => none
  | _ :: _ => some base

/-- The address of the last of them. -/
def last (base : Nat) : List α → Option Nat
  | [] => none
  | _ :: vs => some (base + vs.length)

/-- Nodes for the values, one behind the other from `base` on, each with a pointer to the next. -/
def laid (base : Nat) : List α → List (Node α)
  | [] => []
  | v :: vs => ⟨v, first (base + 1) vs⟩ :: laid (base + 1) vs

@[simp] theorem length_laid (base : Nat) (vs : List α) : (laid base vs).length = vs.length := by
  induction vs generalizing base with
  | nil => rfl
  | cons v vs ih => rw [laid, List.length_cons, ih, List.length_cons]

theorem chain_laid (nodes : List (Node α)) (vs : List α) :
    Chain (nodes ++ laid nodes.length vs) (first nodes.length vs) vs := by
  induction vs generalizing nodes with
  | nil => exact .nil
  | cons v vs ih =>
      have hrest := ih (nodes ++ [⟨v, first (nodes.length + 1) vs⟩])
      rw [List.length_append, List.length_singleton, List.append_assoc] at hrest
      refine .cons ?_ hrest
      rw [laid, List.getElem?_append_right le_rfl, Nat.sub_self]
      rfl

@[simp] theorem first_concat (base : Nat) (vs : List α) (v : α) :
    first base (vs ++ [v]) = some base := by
  cases vs <;> rfl

@[simp] theorem last_concat (base : Nat) (vs : List α) (v : α) :
    last base (vs ++ [v]) = some (base + vs.length) := by
  cases vs with
  | nil => rfl
  | cons w vs => rw [List.cons_append, last, List.length_append, List.length_cons]; rfl

/-- **Appending a value**: the pointer of the last node is set to the new one. -/
theorem laid_concat_concat (base : Nat) (vs : List α) (v w : α) :
    laid base (vs ++ [v] ++ [w]) =
      (laid base (vs ++ [v])).set vs.length ⟨v, some (base + vs.length + 1)⟩ ++ [⟨w, none⟩] := by
  induction vs generalizing base with
  | nil => rfl
  | cons u vs ih =>
      rw [List.cons_append, List.cons_append, laid, laid, ih, first_concat, first_concat,
        List.length_cons, List.set_cons_succ, List.cons_append]
      congr 6
      omega

/-- The last node, whose pointer is null. -/
theorem getElem?_laid_concat (base : Nat) (vs : List α) (v : α) :
    (laid base (vs ++ [v]))[vs.length]? = some ⟨v, none⟩ := by
  induction vs generalizing base with
  | nil => rfl
  | cons u vs ih =>
      rw [List.cons_append, laid, List.length_cons, List.getElem?_cons_succ, ih]

theorem set_laid_concat (base : Nat) (vs : List α) (v w : α) :
    (laid base (vs ++ [v])).set vs.length ⟨w, none⟩ = laid base (vs ++ [w]) := by
  induction vs generalizing base with
  | nil => rfl
  | cons u vs ih =>
      rw [List.cons_append, List.cons_append, laid, laid, List.length_cons, List.set_cons_succ, ih,
        first_concat, first_concat]

end BlogStuff.Cpp
