import BlogStuff.Cpp.Chain
import Mathlib.Data.Nat.Digits.Lemmas

/-!
# BlogStuff.Algorithm.DigitLists

`addTwoNumbers` of `leetcode/2_add_two_numbers.cpp`: the sum of two numbers whose digits are
linked lists, least significant first.

One loop goes through both lists and appends a node for every digit of the sum. It runs on behind
the end of a list, and once more for a last carry. The memory is always the given nodes with the
digits so far laid behind them (`Adder.at`), so the given lists are never changed, also where they
share nodes. The value is carried by `Adding`: the digits so far, and above them the carry with
what is left of both lists, make the sum.
-/

namespace BlogStuff.Algorithm

open BlogStuff.Cpp

/-! ### The program -/

/-- The memory and the variables of the loop. A pointer is the index of a node, or none for a null
pointer. -/
@[ext] structure Adder where
  nodes : List (Node Nat)
  l1 : Option Nat
  l2 : Option Nat
  carry : Nat
  curDigit : Option Nat
  result : Option Nat
  deriving DecidableEq

/-- `NULL == l ? 0 : l->val`. There is no value at an address without a node. -/
def valOr (nodes : List (Node Nat)) : Option Nat → Option Nat
  | none => some 0
  | some a => nodes[a]?.map Node.val

/-- `NULL == l ? l : l->next`. -/
def nextOr (nodes : List (Node Nat)) : Option Nat → Option (Option Nat)
  | none => some none
  | some a => nodes[a]?.map Node.next

/-- `new ListNode(0)`, behind `cur_digit` if there is one; with the new value of `result`. -/
def newDigit (s : Adder) : Option (List (Node Nat) × Option Nat) :=
  let nodes := s.nodes ++ [⟨0, none⟩]
  match s.curDigit with
  | none => some (nodes, some s.nodes.length)
  | some c => do
      let node ← nodes[c]?
      return (nodes.set c { node with next := some s.nodes.length }, s.result)

/-- The digit that stays of a value, `val %= 10` if it is above 9. -/
def digitOf (val : Nat) : Nat := if 9 < val then val % 10 else val

/-- The carry of a value. -/
def carryOf (val : Nat) : Nat := if 9 < val then 1 else 0

/-- The body of the loop: a new node, the digit and the carry of the sum of both digits, and one
step on in both lists. A list that has ended counts as zeros. -/
def addStep (s : Adder) : Option Adder := do
  let (nodes, result) ← newDigit s
  let cur := s.nodes.length
  let v1 ← valOr nodes s.l1
  let v2 ← valOr nodes s.l2
  let val := s.carry + v1 + v2
  let node ← nodes[cur]?
  let nodes := nodes.set cur { node with val := digitOf val }
  let l1 ← nextOr nodes s.l1
  let l2 ← nextOr nodes s.l2
  return ⟨nodes, l1, l2, carryOf val, some cur, result⟩

/-- The loop, for `fuel` tests of its condition. -/
def addLoop : Nat → Adder → Option Adder
  | 0, _ => none
  | fuel + 1, s =>
      if s.l1 = none ∧ s.l2 = none ∧ s.carry = 0 then some s
      else (addStep s).bind (addLoop fuel)

/-- `addTwoNumbers(l1, l2)`: the memory afterwards, and the result. -/
def addTwoNumbers (fuel : Nat) (nodes : List (Node Nat)) (l1 l2 : Option Nat) :
    Option (List (Node Nat) × Option Nat) :=
  (addLoop fuel ⟨nodes, l1, l2, 0, none, none⟩).map fun s => (s.nodes, s.result)

/-! ### The memory -/

/-- The state after the digits `out`. -/
def Adder.at (nodes : List (Node Nat)) (out : List Nat) (l1 l2 : Option Nat) (carry : Nat) :
    Adder :=
  ⟨nodes ++ laid nodes.length out, l1, l2, carry, last nodes.length out, first nodes.length out⟩

@[simp] theorem Adder.at_l1 (nodes : List (Node Nat)) (out : List Nat) (l1 l2 : Option Nat)
    (carry : Nat) : (Adder.at nodes out l1 l2 carry).l1 = l1 := rfl

@[simp] theorem Adder.at_l2 (nodes : List (Node Nat)) (out : List Nat) (l1 l2 : Option Nat)
    (carry : Nat) : (Adder.at nodes out l1 l2 carry).l2 = l2 := rfl

@[simp] theorem Adder.at_carry (nodes : List (Node Nat)) (out : List Nat) (l1 l2 : Option Nat)
    (carry : Nat) : (Adder.at nodes out l1 l2 carry).carry = carry := rfl

section

variable {nodes : List (Node Nat)} {out ds es : List Nat} {l1 l2 p : Option Nat} {carry : Nat}

/-- The first value of a chain, or zero. -/
theorem valOr_chain (h : Chain nodes p ds) : valOr nodes p = some (ds.headD 0) := by
  cases h with
  | nil => rfl
  | cons hnode _ => rw [valOr, hnode]; rfl

theorem nextOr_chain (h : Chain nodes p ds) :
    ∃ q, nextOr nodes p = some q ∧ Chain nodes q ds.tail := by
  cases h with
  | nil => exact ⟨none, rfl, .nil⟩
  | cons hnode htail => exact ⟨_, by rw [nextOr, hnode]; rfl, htail⟩

theorem nextOr_append (h : Chain nodes p ds) (more : List (Node Nat)) :
    nextOr (nodes ++ more) p = nextOr nodes p := by
  cases h with
  | nil => rfl
  | cons hnode _ =>
      rw [nextOr, nextOr, List.getElem?_append_left (List.getElem?_eq_some_iff.mp hnode).1]

/-- The new node is behind the digits so far. The first digit is the head of the answer; every other
one is linked to by the node before it, which is the only write to an old node. -/
theorem newDigit_at (nodes : List (Node Nat)) (out : List Nat) (l1 l2 : Option Nat) (carry : Nat) :
    newDigit (.at nodes out l1 l2 carry) =
      some (nodes ++ laid nodes.length (out ++ [0]), first nodes.length (out ++ [0])) := by
  rcases List.eq_nil_or_concat' out with rfl | ⟨vs, v, rfl⟩
  · simp [newDigit, Adder.at, laid, last, first]
  · have hread : (nodes ++ laid nodes.length (vs ++ [v]) ++ [(⟨0, none⟩ : Node Nat)])[
        nodes.length + vs.length]? = some ⟨v, none⟩ := by
      rw [List.append_assoc, List.getElem?_append_right (Nat.le_add_right _ _),
        Nat.add_sub_cancel_left, List.getElem?_append_left (by simp), getElem?_laid_concat]
    have hset : (nodes ++ laid nodes.length (vs ++ [v]) ++ [(⟨0, none⟩ : Node Nat)]).set
          (nodes.length + vs.length) ⟨v, some (nodes.length + vs.length + 1)⟩ =
        nodes ++ laid nodes.length (vs ++ [v] ++ [0]) := by
      rw [laid_concat_concat, List.append_assoc, List.set_append_right _ _ (Nat.le_add_right _ _),
        Nat.add_sub_cancel_left, List.set_append_left _ _ (by simp)]
    have hlen : (nodes ++ laid nodes.length (vs ++ [v])).length = nodes.length + vs.length + 1 := by
      rw [List.length_append, length_laid, List.length_append]
      rfl
    simp only [newDigit, Adder.at, last_concat, first_concat, hread, hlen, hset,
      Option.bind_eq_bind, Option.bind_some]
    rfl

/-- **A round appends the digit of the sum and goes on in both lists.** The nodes of the two numbers
stay as they are, because the answer is laid out behind them. -/
theorem addStep_at (out : List Nat) (carry : Nat) (h1 : Chain nodes l1 ds)
    (h2 : Chain nodes l2 es) :
    ∃ l1' l2', Chain nodes l1' ds.tail ∧ Chain nodes l2' es.tail ∧
      addStep (.at nodes out l1 l2 carry) =
        some (.at nodes (out ++ [digitOf (carry + ds.headD 0 + es.headD 0)]) l1' l2'
          (carryOf (carry + ds.headD 0 + es.headD 0))) := by
  obtain ⟨l1', hnext1, htail1⟩ := nextOr_chain h1
  obtain ⟨l2', hnext2, htail2⟩ := nextOr_chain h2
  refine ⟨l1', l2', htail1, htail2, ?_⟩
  have hcur : (Adder.at nodes out l1 l2 carry).nodes.length = nodes.length + out.length := by
    simp [Adder.at]
  have hread : (nodes ++ laid nodes.length (out ++ [0]))[nodes.length + out.length]? =
      some ⟨0, none⟩ := by
    rw [List.getElem?_append_right (Nat.le_add_right _ _), Nat.add_sub_cancel_left,
      getElem?_laid_concat]
  have hset : ∀ d, (nodes ++ laid nodes.length (out ++ [0])).set (nodes.length + out.length)
      ⟨d, none⟩ = nodes ++ laid nodes.length (out ++ [d]) := fun d => by
    rw [List.set_append_right _ _ (Nat.le_add_right _ _), Nat.add_sub_cancel_left,
      set_laid_concat]
  simp only [addStep, newDigit_at, hcur, hread, hset, Option.bind_eq_bind, Option.bind_some]
  simp only [Adder.at_l1, Adder.at_l2, Adder.at_carry, valOr_chain (h1.append _),
    valOr_chain (h2.append _), nextOr_append h1, nextOr_append h2, hnext1, hnext2,
    Option.bind_some]
  rw [Adder.at, last_concat, first_concat, first_concat]
  rfl

end

/-! ### The value -/

/-- The digits so far, the carry and what is left of the lists make the sum; `n` digits are
written when both lists are at their end. -/
structure Adding (sum n : Nat) (out : List Nat) (carry : Nat) (ds es : List Nat) : Prop where
  digit_le : ∀ d ∈ out, d ≤ 9
  carry_le : carry ≤ 1
  value : Nat.ofDigits 10 out +
    10 ^ out.length * (carry + Nat.ofDigits 10 ds + Nat.ofDigits 10 es) = sum
  length : out.length + max ds.length es.length = n

theorem digitOf_carryOf {val : Nat} (h : val < 20) :
    digitOf val = val % 10 ∧ carryOf val = val / 10 := by
  rw [digitOf, carryOf]
  split_ifs <;> omega

section

variable {nodes : List (Node Nat)} {out ds es : List Nat} {l1 l2 : Option Nat} {carry sum n : Nat}

/-- A list is its first digit and the rest; behind its end both are zero. -/
theorem ofDigits_headD (b : Nat) (ds : List Nat) :
    Nat.ofDigits b ds = ds.headD 0 + b * Nat.ofDigits b ds.tail := by
  cases ds with
  | nil => simp
  | cons d ds => exact Nat.ofDigits_cons

theorem headD_le (h : ∀ d ∈ ds, d ≤ 9) : ds.headD 0 ≤ 9 := by
  cases ds with
  | nil => exact Nat.zero_le 9
  | cons d ds => exact h d List.mem_cons_self

/-- A round keeps the sum: two digits and a carry are less than 20, so the digit that is written and
the carry are the remainder and the quotient by 10. -/
theorem Adding.step (h : Adding sum n out carry ds es) (hds : ∀ d ∈ ds, d ≤ 9)
    (hes : ∀ e ∈ es, e ≤ 9) (hne : 0 < max ds.length es.length) :
    Adding sum n (out ++ [digitOf (carry + ds.headD 0 + es.headD 0)])
      (carryOf (carry + ds.headD 0 + es.headD 0)) ds.tail es.tail := by
  have hd := headD_le hds
  have he := headD_le hes
  have hc := h.carry_le
  -- two digits and a carry are below 20, so digit and carry are remainder and quotient
  obtain ⟨hdigit, hcarry⟩ := digitOf_carryOf (show carry + ds.headD 0 + es.headD 0 < 20 by omega)
  rw [hdigit, hcarry]
  refine ⟨fun d hmem => ?_, by omega, ?_, ?_⟩
  · rcases List.mem_append.mp hmem with hmem | hmem
    · exact h.digit_le d hmem
    · rw [List.mem_singleton.mp hmem]
      omega
  · have hsplit : (carry + ds.headD 0 + es.headD 0) % 10 + 10 *
          ((carry + ds.headD 0 + es.headD 0) / 10 + Nat.ofDigits 10 ds.tail +
            Nat.ofDigits 10 es.tail) =
        carry + (ds.headD 0 + 10 * Nat.ofDigits 10 ds.tail) +
          (es.headD 0 + 10 * Nat.ofDigits 10 es.tail) := by omega
    rw [← h.value, ofDigits_headD 10 ds, ofDigits_headD 10 es, ← hsplit, Nat.ofDigits_append,
      Nat.ofDigits_singleton, List.length_append, List.length_singleton]
    ring
  · rw [← h.length, List.length_append, List.length_singleton, List.length_tail,
      List.length_tail]
    omega

/-- The rounds up to the end of both lists, as many as the longer one has digits. What is left then
is the carry. -/
theorem addLoop_lists (h : Adding sum n out carry ds es) (hds : ∀ d ∈ ds, d ≤ 9)
    (hes : ∀ e ∈ es, e ≤ 9) (h1 : Chain nodes l1 ds) (h2 : Chain nodes l2 es) (fuel : Nat) :
    ∃ out' carry', Adding sum n out' carry' [] [] ∧
      addLoop (max ds.length es.length + fuel) (.at nodes out l1 l2 carry) =
        addLoop fuel (.at nodes out' none none carry') := by
  -- by induction on the number of rounds that are left
  induction hk : max ds.length es.length generalizing out carry ds es l1 l2 with
  | zero =>
      obtain rfl : ds = [] := List.eq_nil_of_length_eq_zero (by omega)
      obtain rfl : es = [] := List.eq_nil_of_length_eq_zero (by omega)
      cases h1
      cases h2
      exact ⟨out, carry, h, by rw [Nat.zero_add]⟩
  | succ k ih =>
      obtain ⟨l1', l2', h1', h2', hstep⟩ := addStep_at out carry h1 h2
      have hnext := h.step hds hes (by omega)
      obtain ⟨out', carry', hend, hrun⟩ := ih hnext (fun d hd => hds d (List.mem_of_mem_tail hd))
        (fun e he => hes e (List.mem_of_mem_tail he)) h1' h2'
        (by rw [List.length_tail, List.length_tail]; omega)
      refine ⟨out', carry', hend, ?_⟩
      have hgo : ¬ ((Adder.at nodes out l1 l2 carry).l1 = none ∧
          (Adder.at nodes out l1 l2 carry).l2 = none ∧
          (Adder.at nodes out l1 l2 carry).carry = 0) := by
        intro hnone
        obtain ⟨hl1, hl2, -⟩ := hnone
        rw [Adder.at_l1] at hl1
        rw [Adder.at_l2] at hl2
        subst hl1 hl2
        cases h1
        cases h2
        exact absurd hk (Nat.succ_ne_zero k).symm
      rw [Nat.succ_add, addLoop, if_neg hgo, hstep, Option.bind_some, hrun]

/-- The last round, if there is a carry. There is one exactly if the sum has a digit more than the
longer number, since the digits so far stay below that power of ten. -/
theorem addLoop_carry (h : Adding sum n out carry [] []) (nodes : List (Node Nat)) (fuel : Nat) :
    ∃ out', addLoop (fuel + 2) (.at nodes out none none carry) =
        some (.at nodes out' none none 0) ∧
      (∀ d ∈ out', d ≤ 9) ∧ Nat.ofDigits 10 out' = sum ∧
      out'.length = n + if 10 ^ n ≤ sum then 1 else 0 := by
  have hlen : out.length = n := by simpa using h.length
  have hvalue : Nat.ofDigits 10 out + 10 ^ n * carry = sum := by
    have hv := h.value
    simpa [hlen] using hv
  have hlt : Nat.ofDigits 10 out < 10 ^ n := by
    rw [← hlen]
    exact Nat.ofDigits_lt_base_pow_length (by norm_num) fun d hd => by
      have := h.digit_le d hd
      omega
  rcases Nat.le_one_iff_eq_zero_or_eq_one.mp h.carry_le with rfl | rfl
  · refine ⟨out, by simp [addLoop], h.digit_le, by omega, ?_⟩
    rw [if_neg (by omega), hlen, Nat.add_zero]
  · obtain ⟨l1', l2', h1', h2', hstep⟩ := addStep_at out 1 (.nil : Chain nodes none []) .nil
    cases h1'
    cases h2'
    have hdigits : ∀ d ∈ out ++ [1], d ≤ 9 := fun d hd => by
      rcases List.mem_append.mp hd with hd | hd
      · exact h.digit_le d hd
      · rw [List.mem_singleton.mp hd]
        omega
    refine ⟨out ++ [1], ?_, hdigits, ?_, ?_⟩
    · rw [addLoop, if_neg (by simp), hstep]
      simp [addLoop, digitOf, carryOf]
    · rw [Nat.ofDigits_append, Nat.ofDigits_singleton, hlen, ← hvalue]
    · rw [if_pos (by omega), List.length_append, hlen]
      rfl

end

/-- **The sum of two lists of digits**: digits again, with the sum of the values, one longer than
the longer list exactly if the sum does not fit. The lists and whatever else is in memory are not
changed. -/
theorem addTwoNumbers_sum (nodes : List (Node Nat)) (l1 l2 : Option Nat) (ds es : List Nat)
    (h1 : Chain nodes l1 ds) (h2 : Chain nodes l2 es) (hds : ∀ d ∈ ds, d ≤ 9)
    (hes : ∀ e ∈ es, e ≤ 9) (fuel : Nat) (hfuel : max ds.length es.length + 2 ≤ fuel) :
    ∃ nodes' result out, addTwoNumbers fuel nodes l1 l2 = some (nodes', result) ∧
      nodes <+: nodes' ∧ Chain nodes' result out ∧ (∀ d ∈ out, d ≤ 9) ∧
      Nat.ofDigits 10 out = Nat.ofDigits 10 ds + Nat.ofDigits 10 es ∧
      out.length = max ds.length es.length +
        if 10 ^ max ds.length es.length ≤ Nat.ofDigits 10 ds + Nat.ofDigits 10 es then 1 else 0 := by
  obtain ⟨fuel, rfl⟩ : ∃ k, fuel = max ds.length es.length + (k + 2) :=
    ⟨fuel - (max ds.length es.length + 2), by omega⟩
  have hstart : Adding (Nat.ofDigits 10 ds + Nat.ofDigits 10 es) (max ds.length es.length) [] 0
      ds es :=
    ⟨fun d hd => absurd hd List.not_mem_nil, Nat.zero_le 1, by simp, by simp⟩
  obtain ⟨out, carry, hend, hlists⟩ := addLoop_lists hstart hds hes h1 h2 (fuel + 2)
  obtain ⟨out', hcarry, hdigits, hsum, hlen⟩ := addLoop_carry hend nodes fuel
  have hinit : (⟨nodes, l1, l2, 0, none, none⟩ : Adder) = .at nodes [] l1 l2 0 := by
    simp [Adder.at, laid, last, first]
  refine ⟨_, _, out', ?_, List.prefix_append nodes _, chain_laid nodes out', hdigits, hsum, hlen⟩
  rw [addTwoNumbers, hinit, hlists, hcarry]
  rfl

/-- The example of the file: 342 + 465. -/
theorem addTwoNumbers_sum_file :
    ∃ nodes' result out,
      addTwoNumbers 5 (laid 0 [2, 4, 3] ++ laid 3 [5, 6, 4]) (some 0) (some 3) =
        some (nodes', result) ∧
      laid 0 [2, 4, 3] ++ laid 3 [5, 6, 4] <+: nodes' ∧ Chain nodes' result out ∧
      (∀ d ∈ out, d ≤ 9) ∧
      Nat.ofDigits 10 out = Nat.ofDigits 10 [2, 4, 3] + Nat.ofDigits 10 [5, 6, 4] ∧
      out.length = max 3 3 +
        if 10 ^ max 3 3 ≤ Nat.ofDigits 10 [2, 4, 3] + Nat.ofDigits 10 [5, 6, 4] then 1 else 0 :=
  addTwoNumbers_sum (laid 0 [2, 4, 3] ++ laid 3 [5, 6, 4]) (some 0) (some 3) [2, 4, 3] [5, 6, 4]
    ((chain_laid [] [2, 4, 3]).append _) (chain_laid (laid 0 [2, 4, 3]) [5, 6, 4])
    (by decide) (by decide) 5 (by decide)

end BlogStuff.Algorithm
