import Mathlib.Data.Finset.Card
import Mathlib.Data.List.Basic
import Mathlib.Tactic

/-!
# BlogStuff.Seq.Growing

A `for` loop over a list that its body extends: `for a in items: body(a)`, where the body may add
to `items` and may raise. The loop counts positions, so it comes to what is added, and it ends
when it has come to the end of the list as it is then.

`addMissing` appends what is not in a list yet. If the body adds to the list in this way only, and
only things from a finite set, the loop ends (`forGrowing_isSome`): everything added takes one
thing off those that could still be added.
-/

namespace BlogStuff.Seq

variable {α σ : Type}

/-- The loop from position `i` on, over a list that the body may append to. The outer option is the
fuel, the inner one an exception. -/
def forGrowing (items : σ → List α) (body : α → σ → Option σ) : Nat → Nat → σ → Option (Option σ)
  | 0, _, _ => none
  | fuel + 1, i, s =>
      match (items s)[i]? with
      | none => some (some s)
      | some a =>
          match body a s with
          | none => some none
          | some s' => forGrowing items body fuel (i + 1) s'

section

variable {items : σ → List α} {body : α → σ → Option σ}

theorem forGrowing_stop {i : Nat} {s : σ} (hi : (items s)[i]? = none) (fuel : Nat) :
    forGrowing items body (fuel + 1) i s = some (some s) := by
  rw [forGrowing, hi]

theorem forGrowing_raise {i : Nat} {s : σ} {a : α} (hi : (items s)[i]? = some a)
    (ha : body a s = none) (fuel : Nat) :
    forGrowing items body (fuel + 1) i s = some none := by
  rw [forGrowing, hi]
  simp only [ha]

theorem forGrowing_next {i : Nat} {s s' : σ} {a : α} (hi : (items s)[i]? = some a)
    (ha : body a s = some s') (fuel : Nat) :
    forGrowing items body (fuel + 1) i s = forGrowing items body fuel (i + 1) s' := by
  rw [forGrowing, hi]
  simp only [ha]

/-- The loop ends if each round adds no more to the list than it takes off a potential. What is left
of the list and the potential together is then a bound for the rounds. -/
theorem forGrowing_isSome (potential : σ → Nat)
    (hbody : ∀ a s s', body a s = some s' →
      potential s' + (items s').length ≤ potential s + (items s).length)
    {fuel i : Nat} {s : σ} (hfuel : potential s + (items s).length < fuel + i) (hpos : 0 < fuel) :
    (forGrowing items body fuel i s).isSome := by
  induction fuel generalizing i s with
  | zero => cases hpos
  | succ fuel ih =>
      cases hi : (items s)[i]? with
      | none => rw [forGrowing_stop hi, Option.isSome_some]
      | some a =>
          cases ha : body a s with
          | none => rw [forGrowing_raise hi ha, Option.isSome_some]
          | some s' =>
              have hlt : i < (items s).length := (List.getElem?_eq_some_iff.mp hi).1
              have hle := hbody a s s' ha
              rw [forGrowing_next hi ha]
              exact ih (i := i + 1) (s := s') (by omega) (by omega)

/-- What each round keeps, with the position, holds when the loop has come to the end; and if it
raises, it does so in a round where that holds. -/
theorem forGrowing_invariant {P : Nat → σ → Prop}
    (hstep : ∀ i s a s', P i s → (items s)[i]? = some a → body a s = some s' → P (i + 1) s')
    {fuel i : Nat} {s : σ} {r : Option σ} (h : forGrowing items body fuel i s = some r)
    (hs : P i s) :
    (∃ j s', r = some s' ∧ P j s' ∧ (items s').length ≤ j) ∨
      ∃ j s' a, r = none ∧ P j s' ∧ (items s')[j]? = some a ∧ body a s' = none := by
  induction fuel generalizing i s with
  | zero => cases h
  | succ fuel ih =>
      cases hi : (items s)[i]? with
      | none =>
          rw [forGrowing_stop hi] at h
          exact .inl ⟨i, s, (Option.some.inj h).symm, hs, List.getElem?_eq_none_iff.mp hi⟩
      | some a =>
          cases ha : body a s with
          | none =>
              rw [forGrowing_raise hi ha] at h
              exact .inr ⟨i, s, a, (Option.some.inj h).symm, hs, hi, ha⟩
          | some s' =>
              rw [forGrowing_next hi ha] at h
              exact ih h (hstep i s a s' hs hi ha)

end

/-- What the loop has come to, when a round more is done. -/
theorem take_succ_of_grows {l l' : List α} {i : Nat} {a : α} (hgrows : l <+: l')
    (hi : l[i]? = some a) : l'.take (i + 1) = l.take i ++ [a] := by
  obtain ⟨hlt, rfl⟩ := List.getElem?_eq_some_iff.mp hi
  obtain ⟨t, rfl⟩ := hgrows
  rw [List.take_append_of_le_length hlt, List.take_succ_eq_append_getElem hlt]

/-! ### Appending what is missing -/

section

variable [BEq α]

/-- `for b in bs: if l.count(b) == 0: l.append(b)`. -/
def addMissing (l bs : List α) : List α :=
  bs.foldl (fun l b => if l.count b = 0 then l ++ [b] else l) l

theorem addMissing_cons (l : List α) (b : α) (bs : List α) :
    addMissing l (b :: bs) = addMissing (if l.count b = 0 then l ++ [b] else l) bs := rfl

theorem addMissing_append (l bs cs : List α) :
    addMissing l (bs ++ cs) = addMissing (addMissing l bs) cs := List.foldl_append

theorem prefix_addMissing (l bs : List α) : l <+: addMissing l bs := by
  induction bs generalizing l with
  | nil => exact List.prefix_refl l
  | cons b bs ih =>
      rw [addMissing_cons]
      split_ifs
      · exact (List.prefix_append l [b]).trans (ih _)
      · exact ih l

variable [LawfulBEq α]

theorem mem_addMissing {l bs : List α} {a : α} : a ∈ addMissing l bs ↔ a ∈ l ∨ a ∈ bs := by
  induction bs generalizing l with
  | nil => simp [addMissing]
  | cons b bs ih =>
      rw [addMissing_cons, ih, List.mem_cons]
      split_ifs with hb
      · rw [List.mem_append, List.mem_singleton, or_assoc]
      · have hmem : b ∈ l := List.count_pos_iff.mp (Nat.pos_of_ne_zero hb)
        constructor
        · exact fun h => h.imp_right .inr
        · intro h
          rcases h with h | rfl | h
          · exact .inl h
          · exact .inl hmem
          · exact .inr h

/-- Everything appended takes one off those that are missing, so the two together never grow. This
bounds a list that is appended to while it is walked. -/
theorem addMissing_potential {U : Finset α} {l bs : List α} (hbs : ∀ b ∈ bs, b ∈ U) :
    (U.filter (· ∉ addMissing l bs)).card + (addMissing l bs).length ≤
      (U.filter (· ∉ l)).card + l.length := by
  classical
  induction bs generalizing l with
  | nil => exact Nat.le_refl _
  | cons b bs ih =>
      obtain ⟨hb, hbs⟩ := List.forall_mem_cons.mp hbs
      rw [addMissing_cons]
      refine (ih hbs).trans ?_
      split_ifs with hcount
      · have hnew : b ∉ l := List.count_eq_zero.mp hcount
        have herase : U.filter (· ∉ l ++ [b]) = (U.filter (· ∉ l)).erase b := by
          ext a
          simp only [Finset.mem_filter, Finset.mem_erase, List.mem_append, List.mem_singleton,
            not_or]
          tauto
        have hmem : b ∈ U.filter (· ∉ l) := Finset.mem_filter.mpr ⟨hb, hnew⟩
        have hcard := Finset.card_erase_add_one hmem
        rw [herase, List.length_append, List.length_singleton]
        omega
      · exact Nat.le_refl _

end

end BlogStuff.Seq
