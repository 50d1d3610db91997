import BlogStuff.Cpp.Int
import BlogStuff.Order.Rank
import Mathlib.Data.Stream.Init
import Mathlib.Tactic

/-!
# BlogStuff.Algorithm.Selection

`ex9_3_9.cpp`: partition around a random element, and the quicksort and the selection of
the `k`-th smallest element that use it.

`partition` does not swap. It takes the pivot out of the first cell and moves the hole it
leaves: a small element goes into the hole, and the cell behind the hole is cleared for it.
During the loop the vector therefore is `low ++ hole :: high ++ rest`, where the content of
the hole means nothing, and the elements of `low` and `high` are those seen so far
(`foldlM_partitionRound`). Everything about the two recursions follows from the split the
loop ends with (`partition_split`), whatever `random()` returned.

The places of the vector are counted in `int`s, its size in a `size_t`. The functions take the
largest number a counter can hold, or none: with none they are the algorithm, with `intMax` the
program. Up to that many elements both do the same (`partition_split` holds for both); with more
the counter of the loop passes its end (`partition_overlong`).
-/

namespace BlogStuff.Algorithm

open BlogStuff.Cpp BlogStuff.Order

/-! ### The program -/

/-- What can end a run before it returns. -/
inductive Fault
  /-- `assert` failed. -/
  | assertion
  /-- `random() % 0`. -/
  | zeroDivision
  /-- A vector is read or written behind its end. -/
  | outOfRange
  /-- A number does not fit into an `int`. -/
  | overflow
  deriving DecidableEq, Repr

/-- The values `random()` is going to return. -/
abbrev Random := Stream' Nat

/-- `vec[i]`. -/
def getAt (vec : List Int) (i : Nat) : Except Fault Int :=
  match vec[i]? with
  | some x => .ok x
  | none => .error .outOfRange

/-- `vec[i] = x`. -/
def setAt (vec : List Int) (i : Nat) (x : Int) : Except Fault (List Int) :=
  if i < vec.length then .ok (vec.set i x) else .error .outOfRange

/-- A number in a counter that holds numbers up to `limit`. -/
def counter (limit : Option Nat) (n : Nat) : Except Fault Nat :=
  match limit with
  | none => .ok n
  | some max => if n ≤ max then .ok n else .error .overflow

/-- `swap(vec, i, j)`. -/
def swap (vec : List Int) (i j : Nat) : Except Fault (List Int) := do
  let temp ← getAt vec i
  let vec ← setAt vec i (← getAt vec j)
  setAt vec j temp

/-- One round of the loop of `partition`, up to `++j`. The element at `j` goes into the hole at `i`,
and the element behind the hole moves to `j`, so that its cell becomes the hole. -/
def partitionStep (limit : Option Nat) (pivot : Int) (s : Nat × List Int) (j : Nat) :
    Except Fault (Nat × List Int) := do
  let (i, vec) := s
  let x ← getAt vec j
  if x ≤ pivot then
    let temp := x
    let next ← counter limit (i + 1)
    let vec ← setAt vec j (← getAt vec next)
    let vec ← setAt vec i temp
    return (next, vec)
  else return (i, vec)

/-- One round of the loop of `partition`. -/
def partitionRound (limit : Option Nat) (pivot : Int) (s : Nat × List Int) (j : Nat) :
    Except Fault (Nat × List Int) := do
  let s ← partitionStep limit pivot s j
  let _ ← counter limit (j + 1)
  return s

/-- `partition(vec)`: the place of the pivot, and the vector behind the reference. -/
def partition (limit : Option Nat) (rs : Random) (vec : List Int) :
    Except Fault (Nat × List Int × Random) := do
  if vec.length = 1 then return (0, vec, rs)
  -- `random() % vec.size()`
  if vec.length = 0 then throw .zeroDivision
  let r ← counter limit (rs.head % vec.length)
  let vec ← swap vec 0 r
  let pivot ← getAt vec 0
  let (i, vec) ← (List.range' 1 (vec.length - 1)).foldlM (partitionRound limit pivot) (0, vec)
  let vec ← setAt vec i pivot
  return (i, vec, rs.tail)

/-! ### Counters -/

/-- A counter holds the numbers up to this one. -/
def Fits (limit : Option Nat) (n : Nat) : Prop := ∀ max, limit = some max → n ≤ max

theorem fits_none (n : Nat) : Fits none n := fun _ h => by cases h

theorem fits_some {max n : Nat} : Fits (some max) n ↔ n ≤ max :=
  ⟨fun h => h max rfl, fun h _ hmax => Option.some.inj hmax ▸ h⟩

section

variable {limit : Option Nat} {n k : Nat}

theorem Fits.mono (h : Fits limit n) (hk : k ≤ n) : Fits limit k := fun max hmax =>
  hk.trans (h max hmax)

theorem counter_of_fits (h : Fits limit n) : counter limit n = .ok n := by
  cases limit with
  | none => rfl
  | some max => exact if_pos (h max rfl)

theorem counter_of_not_fits (h : ¬ Fits limit n) : counter limit n = .error .overflow := by
  cases limit with
  | none => exact absurd (fits_none n) h
  | some max => exact if_neg fun hle => h (fits_some.mpr hle)

end

/-! ### The travelling hole -/

section

variable {limit : Option Nat} {x pivot : Int}

theorem getAt_append {vec a b : List Int} {i : Nat} (hvec : vec = a ++ x :: b) (hi : i = a.length) :
    getAt vec i = .ok x := by
  simp [getAt, hvec, hi]

theorem setAt_append {vec a b : List Int} {i : Nat} (hvec : vec = a ++ x :: b) (hi : i = a.length)
    (y : Int) : setAt vec i y = .ok (a ++ y :: b) := by
  simp [setAt, hvec, hi]

theorem getAt_seen (low high rest : List Int) (hole : Int) :
    getAt (low ++ hole :: (high ++ x :: rest)) (low.length + 1 + high.length) = .ok x :=
  getAt_append (a := low ++ hole :: high) (b := rest) (by simp) (by simp; omega)

theorem partitionStep_high (low high rest : List Int) (hole : Int) (hx : pivot < x) :
    partitionStep limit pivot (low.length, low ++ hole :: (high ++ x :: rest))
      (low.length + 1 + high.length) = .ok (low.length, low ++ hole :: ((high ++ [x]) ++ rest)) := by
  simp only [partitionStep, getAt_seen, bind, Except.bind, if_neg (not_le.mpr hx)]
  simp [pure, Except.pure]

/-- An element that is not above the pivot goes into the hole; the hole moves on by one cell,
whose element takes the free place. -/
theorem partitionStep_low (low high rest : List Int) (hole : Int) (hx : x ≤ pivot)
    (hfit : Fits limit (low.length + 1)) :
    ∃ hole' high', high'.Perm high ∧
      partitionStep limit pivot (low.length, low ++ hole :: (high ++ x :: rest))
        (low.length + 1 + high.length) =
      .ok ((low ++ [x]).length, (low ++ [x]) ++ hole' :: (high' ++ rest)) := by
  have hread := getAt_seen (x := x) low high rest hole
  have hnext := counter_of_fits hfit
  cases high with
  | nil =>
      -- the cell behind the hole is the element's own
      have hback : setAt (low ++ hole :: x :: rest) (low.length + 1) x =
          .ok (low ++ hole :: x :: rest) := by
        rw [setAt_append (x := x) (a := low ++ [hole]) (b := rest) (by simp) (by simp)]
        simp
      have hfill : setAt (low ++ hole :: x :: rest) low.length x = .ok (low ++ x :: x :: rest) :=
        setAt_append rfl rfl x
      refine ⟨x, [], List.Perm.refl _, ?_⟩
      simp only [List.nil_append, List.length_nil, Nat.add_zero] at hread ⊢
      simp only [partitionStep, hread, hnext, hback, hfill, bind, Except.bind, if_pos hx]
      simp [pure, Except.pure]
  | cons h hs =>
      have hread' : getAt (low ++ hole :: (h :: hs ++ x :: rest)) (low.length + 1) = .ok h :=
        getAt_append (a := low ++ [hole]) (b := hs ++ x :: rest) (by simp) (by simp)
      have hfree : setAt (low ++ hole :: (h :: hs ++ x :: rest)) (low.length + 1 + (h :: hs).length) h =
          .ok (low ++ hole :: (h :: hs ++ h :: rest)) := by
        rw [setAt_append (x := x) (a := low ++ hole :: h :: hs) (b := rest) (by simp) (by simp; omega)]
        simp
      have hfill : setAt (low ++ hole :: (h :: hs ++ h :: rest)) low.length x =
          .ok (low ++ x :: (h :: hs ++ h :: rest)) := setAt_append rfl rfl x
      refine ⟨h, hs ++ [h], List.perm_append_singleton h hs, ?_⟩
      simp only [partitionStep, hread, hnext, hread', hfree, hfill, bind, Except.bind, if_pos hx]
      simp [pure, Except.pure]

/-- One round: the element goes to the part it belongs to, if the counters hold the next place. A
small element is exchanged with the one behind the hole, which moves the hole on by one. -/
theorem partitionRound_step (pivot x : Int) (low high rest : List Int) (hole : Int)
    (hfit : Fits limit (low.length + 1 + high.length + 1)) :
    ∃ hole' low' high', low'.Perm (low ++ [x].filter (· ≤ pivot)) ∧
      high'.Perm (high ++ [x].filter (pivot < ·)) ∧
      partitionRound limit pivot (low.length, low ++ hole :: (high ++ x :: rest))
        (low.length + 1 + high.length) = .ok (low'.length, low' ++ hole' :: (high' ++ rest)) := by
  have hcount := counter_of_fits hfit
  by_cases hx : x ≤ pivot
  · obtain ⟨hole', high', hperm, hstep⟩ := partitionStep_low low high rest hole hx
      (hfit.mono (by omega))
    refine ⟨hole', low ++ [x], high', by simp [hx], by simpa [not_lt.mpr hx] using hperm, ?_⟩
    rw [partitionRound, hstep, hcount]
    rfl
  · have hlt := lt_of_not_ge hx
    refine ⟨hole, low, high ++ [x], by simp [hx], by simp [hlt], ?_⟩
    rw [partitionRound, partitionStep_high low high rest hole hlt, hcount]
    rfl

/-- A round whose next place the counters do not hold: it ends in the overflow of the loop counter,
or before that in the one of the hole. -/
theorem partitionRound_overflow (pivot x : Int) (low high rest : List Int) (hole : Int)
    (hfit : ¬ Fits limit (low.length + 1 + high.length + 1)) :
    partitionRound limit pivot (low.length, low ++ hole :: (high ++ x :: rest))
      (low.length + 1 + high.length) = .error .overflow := by
  have hcount := counter_of_not_fits hfit
  by_cases hx : x ≤ pivot
  · by_cases hnext : Fits limit (low.length + 1)
    · obtain ⟨hole', high', -, hstep⟩ := partitionStep_low low high rest hole hx hnext
      rw [partitionRound, hstep, hcount]
      rfl
    · -- the place behind the hole is already too much
      simp only [partitionRound, partitionStep, getAt_seen, counter_of_not_fits hnext, bind,
        Except.bind, if_pos hx]
  · rw [partitionRound, partitionStep_high low high rest hole (lt_of_not_ge hx), hcount]
    rfl

theorem length_of_round {low high low' high' : List Int}
    (hlow : low'.Perm (low ++ [x].filter (· ≤ pivot)))
    (hhigh : high'.Perm (high ++ [x].filter (pivot < ·))) :
    low'.length + 1 + high'.length = low.length + 1 + high.length + 1 := by
  rw [hlow.length_eq, hhigh.length_eq, List.length_append, List.length_append]
  by_cases hx : x ≤ pivot
  · simp [hx, not_lt.mpr hx]
    omega
  · simp [hx, lt_of_not_ge hx]
    omega

/-- **The loop of `partition`**: what is left to see is divided between the two parts. By induction
on it; the hole moves one cell up with every small element, and its content does not matter. -/
theorem foldlM_partitionRound (limit : Option Nat) (pivot : Int) (rest low high : List Int) (hole : Int)
    (hfit : Fits limit (low.length + 1 + high.length + rest.length)) :
    ∃ hole' low' high', low'.Perm (low ++ rest.filter (· ≤ pivot)) ∧
      high'.Perm (high ++ rest.filter (pivot < ·)) ∧
      (List.range' (low.length + 1 + high.length) rest.length).foldlM (partitionRound limit pivot)
        (low.length, low ++ hole :: (high ++ rest)) = .ok (low'.length, low' ++ hole' :: high') := by
  induction rest generalizing low high hole with
  | nil => exact ⟨hole, low, high, by simp, by simp, by simp [pure, Except.pure]⟩
  | cons x rest ih =>
      rw [List.length_cons] at hfit
      obtain ⟨hole₁, low₁, high₁, hlow₁, hhigh₁, hround⟩ :=
        partitionRound_step pivot x low high rest hole (hfit.mono (by omega))
      have hj := length_of_round hlow₁ hhigh₁
      obtain ⟨hole', low', high', hlow, hhigh, hrun⟩ := ih low₁ high₁ hole₁ (hfit.mono (by omega))
      refine ⟨hole', low', high', ?_, ?_, ?_⟩
      · rw [← List.singleton_append (l := rest), List.filter_append, ← List.append_assoc]
        exact hlow.trans (hlow₁.append_right _)
      · rw [← List.singleton_append (l := rest), List.filter_append, ← List.append_assoc]
        exact hhigh.trans (hhigh₁.append_right _)
      · rw [List.length_cons, List.range'_succ, List.foldlM_cons, hround, ← hj]
        exact hrun

/-- With more places than the counters hold, the loop does not end: it comes to the round whose
next place is the first of them. -/
theorem foldlM_partitionRound_overflow (limit : Option Nat) (pivot : Int) (rest low high : List Int) (hole : Int)
    (hrest : rest ≠ []) (hfit : ¬ Fits limit (low.length + 1 + high.length + rest.length)) :
    (List.range' (low.length + 1 + high.length) rest.length).foldlM (partitionRound limit pivot)
      (low.length, low ++ hole :: (high ++ rest)) = .error .overflow := by
  induction rest generalizing low high hole with
  | nil => exact absurd rfl hrest
  | cons x rest ih =>
      rw [List.length_cons] at hfit
      rw [List.length_cons, List.range'_succ, List.foldlM_cons]
      by_cases hnext : Fits limit (low.length + 1 + high.length + 1)
      · obtain ⟨hole₁, low₁, high₁, hlow₁, hhigh₁, hround⟩ :=
          partitionRound_step pivot x low high rest hole hnext
        have hj := length_of_round hlow₁ hhigh₁
        have hmore : rest ≠ [] := by
          rintro rfl
          exact hfit hnext
        have hsum : low₁.length + 1 + high₁.length + rest.length =
            low.length + 1 + high.length + (rest.length + 1) := by omega
        rw [hround, ← hj]
        exact ih low₁ high₁ hole₁ hmore (hsum ▸ hfit)
      · rw [partitionRound_overflow pivot x low high rest hole hnext]
        rfl

end

/-- The pivot comes to the front, and nothing else is lost: an exchange of two places is a
permutation. -/
theorem swap_front (vec : List Int) (r : Nat) (hr : r < vec.length) :
    ∃ pivot rest, swap vec 0 r = .ok (pivot :: rest) ∧ (pivot :: rest).Perm vec := by
  obtain ⟨x, vec, rfl⟩ := List.exists_cons_of_length_pos (Nat.zero_lt_of_lt hr)
  cases r with
  | zero => exact ⟨x, vec, by simp [swap, getAt, setAt, bind, Except.bind], List.Perm.refl _⟩
  | succ r =>
      rw [List.length_cons, Nat.add_lt_add_iff_right] at hr
      refine ⟨vec[r], vec.set r x, ?_, ?_⟩
      · simp [swap, getAt, setAt, bind, Except.bind, hr]
      · have hsplit : vec = vec.take r ++ vec[r] :: vec.drop (r + 1) := by
          rw [List.cons_getElem_drop_succ, List.take_append_drop]
        rw [List.set_eq_take_append_cons_drop, if_pos hr]
        have hout : (vec[r] :: (vec.take r ++ x :: vec.drop (r + 1))).Perm
            (vec[r] :: x :: (vec.take r ++ vec.drop (r + 1))) := List.perm_middle.cons _
        have hin : (vec[r] :: (vec.take r ++ vec.drop (r + 1))).Perm vec := by
          nth_rewrite 4 [hsplit]
          exact List.perm_middle.symm
        exact hout.trans ((List.Perm.swap _ _ _).trans (hin.cons x))

section

variable {limit : Option Nat} {rs : Random} {vec : List Int}

/-- **`partition` splits the vector** around the element it returns the place of, if the counters
hold its places. -/
theorem partition_split (rs : Random) (hvec : vec ≠ []) (hfit : Fits limit vec.length) :
    ∃ low pivot high rs', partition limit rs vec = .ok (low.length, low ++ pivot :: high, rs') ∧
      Split pivot vec low high := by
  by_cases h1 : vec.length = 1
  · obtain ⟨x, rfl⟩ := List.length_eq_one_iff.mp h1
    exact ⟨[], x, [], rs, by simp [partition, pure, Except.pure], ⟨by simp, by simp, by simp⟩⟩
  · have h0 : vec.length ≠ 0 := fun h => hvec (List.length_eq_zero_iff.mp h)
    have hr : rs.head % vec.length < vec.length := Nat.mod_lt _ (Nat.pos_of_ne_zero h0)
    have hcount := counter_of_fits (hfit.mono hr.le)
    obtain ⟨pivot, rest, hswap, hperm⟩ := swap_front vec (rs.head % vec.length) hr
    have hlen : rest.length + 1 = vec.length := hperm.length_eq
    obtain ⟨hole, low, high, hlow, hhigh, hrun⟩ := foldlM_partitionRound limit pivot rest
      [] [] pivot (hfit.mono (by simp; omega))
    refine ⟨low, pivot, high, rs.tail, ?_, ?_, ?_, ?_⟩
    · have hlast : setAt (low ++ hole :: high) low.length pivot = .ok (low ++ pivot :: high) :=
        setAt_append rfl rfl pivot
      simp only [List.nil_append, List.length_nil, Nat.zero_add, Nat.add_zero] at hrun
      simp [partition, h1, h0, hcount, hswap, bind, Except.bind, getAt, hrun, hlast, pure,
        Except.pure]
    · have hnot : rest.filter (pivot < ·) = rest.filter fun x => !decide (x ≤ pivot) :=
        List.filter_congr fun x _ => by rw [← decide_not, decide_eq_decide, not_le]
      have hparts : (low ++ high).Perm rest := by
        rw [hnot] at hhigh
        exact (hlow.append hhigh).trans (List.filter_append_perm _ rest)
      exact List.perm_middle.trans ((hparts.cons pivot).trans hperm)
    · intro x hx
      have hmem := hlow.mem_iff.mp hx
      simpa using (List.mem_filter.mp hmem).2
    · intro x hx
      have hmem := hhigh.mem_iff.mp hx
      simpa using (List.mem_filter.mp hmem).2

/-- A vector with more places than the counters hold, and with something to divide. The random place
may already be too much; otherwise the loop runs into the bound, since it has a round for every
place. -/
theorem partition_overlong (rs : Random) (hlen : 2 ≤ vec.length) (hfit : ¬ Fits limit vec.length) :
    partition limit rs vec = .error .overflow := by
  have h1 : vec.length ≠ 1 := by omega
  have h0 : vec.length ≠ 0 := by omega
  by_cases hr : Fits limit (rs.head % vec.length)
  · have hcount := counter_of_fits hr
    obtain ⟨pivot, rest, hswap, hperm⟩ := swap_front vec (rs.head % vec.length)
      (Nat.mod_lt _ (Nat.pos_of_ne_zero h0))
    have hrest : rest.length + 1 = vec.length := hperm.length_eq
    have hne : rest ≠ [] := by
      rintro rfl
      exact h1 hrest.symm
    have hrun := foldlM_partitionRound_overflow limit pivot rest [] [] pivot hne
      (by simpa [Nat.add_comm, hrest] using hfit)
    simp only [List.nil_append, List.length_nil, Nat.zero_add, Nat.add_zero] at hrun
    simp [partition, h1, h0, hcount, hswap, bind, Except.bind, getAt, hrun]
  · simp [partition, h1, h0, counter_of_not_fits hr, bind, Except.bind]

/-- How a call of `partition` with a non-empty vector ends. -/
theorem partition_cases (limit : Option Nat) (rs : Random) (hvec : vec ≠ []) :
    (∃ low pivot high rs', partition limit rs vec = .ok (low.length, low ++ pivot :: high, rs') ∧
      Split pivot vec low high) ∨
    (¬ Fits limit vec.length ∧ partition limit rs vec = .error .overflow) := by
  by_cases hfit : Fits limit vec.length
  · exact .inl (partition_split rs hvec hfit)
  · rcases Nat.lt_or_ge vec.length 2 with hlen | hlen
    · -- a single element is returned as it is
      have hpos := List.length_pos_iff.mpr hvec
      obtain ⟨x, rfl⟩ := List.length_eq_one_iff.mp (by omega : vec.length = 1)
      exact .inl ⟨[], x, [], rs, by simp [partition, pure, Except.pure], by simp, by simp, by simp⟩
    · exact .inr ⟨hfit, partition_overlong rs hlen hfit⟩

/-! ### The recursions -/

theorem partition_length {rs' : Random} {v : List Int} {i : Nat}
    (h : partition limit rs vec = .ok (i, v, rs')) : i < vec.length ∧ v.length = vec.length := by
  have hvec : vec ≠ [] := by
    rintro rfl
    simp [partition, throw, throwThe, MonadExceptOf.throw, bind, Except.bind] at h
  obtain ⟨low, pivot, high, rs₁, hrun, hsplit⟩ | ⟨-, hrun⟩ := partition_cases limit rs hvec
  · rw [hrun] at h
    simp only [Except.ok.injEq, Prod.mk.injEq] at h
    obtain ⟨rfl, rfl, -⟩ := h
    exact ⟨hsplit.length_low_lt, hsplit.perm.length_eq⟩
  · rw [hrun] at h
    cases h

end

/-- `quickSort(vec)`. The parts are copied out of the vector and sorted by themselves; each call
takes its random numbers behind those of the one before. -/
def quickSort (limit : Option Nat) (rs : Random) (vec : List Int) : Except Fault (List Int × Random) :=
  if vec.length < 2 then .ok (vec, rs)
  else
    match _run : partition limit rs vec with
    | .error e => .error e
    | .ok (p, v, rs) => do
        let pivot ← getAt v p
        let (low, rs) ← quickSort limit rs (v.take p)
        let (high, rs) ← quickSort limit rs (v.drop (p + 1))
        return (low ++ pivot :: high, rs)
  termination_by vec.length
  decreasing_by
    all_goals
      obtain ⟨hp, hv⟩ := partition_length ‹partition _ _ vec = _›
      simp only [List.length_take, List.length_drop]
      omega

/-- `getKthItem(vec, k)`, with a `size_t` of so many bits. The assertion compares `k` as an unsigned
number, so a negative `k` fails it. -/
def getKthItem (limit : Option Nat) (bits : Nat) (rs : Random) (vec : List Int) (k : Int) :
    Except Fault (Int × List Int × Random) :=
  if unsigned bits k ≤ vec.length then
    match _run : partition limit rs vec with
    | .error e => .error e
    | .ok (i, v, rs) =>
        if (i : Int) = k - 1 then do return (← getAt v i, v, rs)
        else if (i : Int) > k - 1 then getKthItem limit bits rs (v.take i) k
        else getKthItem limit bits rs (v.drop (i + 1)) (k - i - 1)
  else .error .assertion
  termination_by vec.length
  decreasing_by
    all_goals
      obtain ⟨hi, hv⟩ := partition_length ‹partition _ _ vec = _›
      simp only [List.length_take, List.length_drop]
      omega

theorem drop_behind (low high : List Int) (pivot : Int) :
    (low ++ pivot :: high).drop (low.length + 1) = high := by
  rw [List.drop_append, List.drop_of_length_le (by omega)]
  simp

section

variable {limit : Option Nat} {rs rs' : Random} {vec low high : List Int} {pivot k : Int} {bits : Nat}

theorem quickSort_eq (hlen : ¬ vec.length < 2)
    (hrun : partition limit rs vec = .ok (low.length, low ++ pivot :: high, rs')) :
    quickSort limit rs vec = do
      let (low, rs) ← quickSort limit rs' low
      let (high, rs) ← quickSort limit rs high
      return (low ++ pivot :: high, rs) := by
  rw [quickSort, if_neg hlen]
  split
  · rename_i e herror
    rw [hrun] at herror
    cases herror
  · rename_i p v rs₁ hok
    rw [hrun] at hok
    cases hok
    rw [getAt_append rfl rfl, List.take_left, drop_behind]
    simp [bind, Except.bind]

theorem quickSort_overlong (rs : Random) (hlen : ¬ vec.length < 2) (hfit : ¬ Fits limit vec.length) :
    quickSort limit rs vec = .error .overflow := by
  have hover := partition_overlong rs (Nat.le_of_not_lt hlen) hfit
  rw [quickSort, if_neg hlen]
  split
  · rename_i e herror
    rw [hover] at herror
    cases herror
    rfl
  · rename_i p v rs₁ hok
    rw [hover] at hok
    cases hok

theorem getKthItem_eq (hassert : unsigned bits k ≤ vec.length)
    (hrun : partition limit rs vec = .ok (low.length, low ++ pivot :: high, rs')) :
    getKthItem limit bits rs vec k =
      if (low.length : Int) = k - 1 then .ok (pivot, low ++ pivot :: high, rs')
      else if (low.length : Int) > k - 1 then getKthItem limit bits rs' low k
      else getKthItem limit bits rs' high (k - low.length - 1) := by
  rw [getKthItem, if_pos hassert]
  split
  · rename_i e herror
    rw [hrun] at herror
    cases herror
  · rename_i p v rs₁ hok
    rw [hrun] at hok
    cases hok
    rw [getAt_append rfl rfl, List.take_left, drop_behind]
    simp [bind, Except.bind, pure, Except.pure]

theorem getKthItem_error {e : Fault} (hassert : unsigned bits k ≤ vec.length)
    (hrun : partition limit rs vec = .error e) : getKthItem limit bits rs vec k = .error e := by
  rw [getKthItem, if_pos hassert]
  split
  · rename_i e herror
    rw [hrun] at herror
    cases herror
    rfl
  · rename_i p v rs₁ hok
    rw [hrun] at hok
    cases hok

/-- With counters that hold the places of the vector, `quickSort` sorts. Strong induction on the
length: both parts of the split are shorter, since the pivot is in neither. -/
theorem quickSort_sorted (rs : Random) (hfit : Fits limit vec.length) :
    ∃ sorted rs', quickSort limit rs vec = .ok (sorted, rs') ∧ sorted.Perm vec ∧
      sorted.Pairwise (· ≤ ·) := by
  induction hn : vec.length using Nat.strong_induction_on generalizing rs vec with
  | _ n ih =>
    subst hn
    by_cases hlen : vec.length < 2
    · rw [quickSort, if_pos hlen]
      refine ⟨vec, rs, rfl, List.Perm.refl _, ?_⟩
      exact List.pairwise_iff_getElem.mpr fun i j hi hj hij => absurd hij (by omega)
    · have hvec : vec ≠ [] := fun h => hlen (by simp [h])
      obtain ⟨low, pivot, high, rs₁, hrun, hsplit⟩ := partition_split rs hvec hfit
      have hlowlt := hsplit.length_low_lt
      have hhighlt := hsplit.length_high_lt
      obtain ⟨low', rs₂, hlowRun, hlow, hlowSorted⟩ := ih _ hlowlt rs₁ (hfit.mono hlowlt.le) rfl
      obtain ⟨high', rs₃, hhighRun, hhigh, hhighSorted⟩ := ih _ hhighlt rs₂ (hfit.mono hhighlt.le) rfl
      have hsorted := hsplit.arrange hlow hhigh
      refine ⟨low' ++ pivot :: high', rs₃, ?_, hsorted.perm, hsorted.pairwise hlowSorted hhighSorted⟩
      rw [quickSort_eq hlen hrun, hlowRun]
      show (quickSort limit rs₂ high >>= fun x => _) = _
      rw [hhighRun]
      rfl

end

/-- **`quickSort` sorts**, whatever `random()` returns, exactly the vectors whose size is an `int`.
The two parts `partition` leaves are shorter, so they are sorted in the same way, and all of one is
not above all of the other. -/
theorem quickSort_sorts (rs : Random) (vec : List Int) :
    (∃ sorted rs', quickSort (some intMax) rs vec = .ok (sorted, rs') ∧ sorted.Perm vec ∧
      sorted.Pairwise (· ≤ ·)) ↔ vec.length ≤ intMax := by
  constructor
  · rintro ⟨sorted, rs', hrun, -, -⟩
    by_contra hmax
    have hlen : ¬ vec.length < 2 := by
      have : intMax = 2 ^ 31 - 1 := rfl
      omega
    rw [quickSort_overlong rs hlen (mt fits_some.mp hmax)] at hrun
    cases hrun
  · intro hmax
    exact quickSort_sorted rs (fits_some.mpr hmax)

/-- `2 ^ 31` zeros are not sorted. -/
theorem quickSort_overflows :
    quickSort (some intMax) (Stream'.const 0) (List.replicate (2 ^ 31) 0) = .error .overflow := by
  refine quickSort_overlong _ ?_ ?_ <;> rw [List.length_replicate]
  · decide
  · exact mt fits_some.mp (by decide)

/-! ### The `k`-th item -/

/-- With counters that hold the places of the vector, `getKthItem` returns the `k`-th smallest
element. -/
theorem getKthItem_smallest {limit : Option Nat} {bits : Nat} (hbits : 32 ≤ bits) (rs : Random)
    {vec : List Int} {k : Int} (hk : IsInt k) (h1 : 1 ≤ k) (hsize : k ≤ vec.length)
    (hfit : Fits limit vec.length) :
    ∃ x vec' rs', getKthItem limit bits rs vec k = .ok (x, vec', rs') ∧
      kth vec (k - 1).toNat = some x := by
  induction hn : vec.length using Nat.strong_induction_on generalizing rs vec k with
  | _ n ih =>
    subst hn
    have hvec : vec ≠ [] := fun h => by simp [h] at hsize; omega
    obtain ⟨low, pivot, high, rs₁, hrun, hsplit⟩ := partition_split rs hvec hfit
    have hlowlt := hsplit.length_low_lt
    have hhighlt := hsplit.length_high_lt
    have hassert : unsigned bits k ≤ vec.length := by
      rw [unsigned_of_nonneg hbits (by omega) hk]
      omega
    have hlen : vec.length = low.length + (high.length + 1) := by
      rw [← hsplit.perm.length_eq, List.length_append, List.length_cons]
    rw [getKthItem_eq hassert hrun]
    split_ifs with heq hgt
    · refine ⟨pivot, _, rs₁, rfl, ?_⟩
      rw [← heq, Int.toNat_natCast]
      exact hsplit.kth_pivot
    · obtain ⟨x, vec', rs', hrec, hkth⟩ := ih _ hlowlt rs₁ hk h1 (by omega) (hfit.mono hlowlt.le) rfl
      refine ⟨x, vec', rs', hrec, ?_⟩
      rw [hsplit.kth_low (by omega)]
      exact hkth
    · -- the elements up to the pivot are counted off
      have hrest : (k - 1).toNat = low.length + 1 + (k - low.length - 1 - 1).toNat := by omega
      have hint : IsInt (k - low.length - 1) := by
        obtain ⟨hlow, hhigh⟩ := hk
        exact ⟨by omega, by omega⟩
      obtain ⟨x, vec', rs', hrec, hkth⟩ := ih _ hhighlt rs₁ hint (by omega) (by omega)
        (hfit.mono hhighlt.le) rfl
      refine ⟨x, vec', rs', hrec, ?_⟩
      rw [hrest, hsplit.kth_high]
      exact hkth

/-- **`getKthItem` returns the `k`-th smallest element**, whatever `random()` returns, exactly
if the size of the vector is an `int`. `partition` puts one element at its place in the sorted
order, and the search goes on in the part that holds the place `k - 1`, which is smaller. -/
theorem getKthItem_kth {bits : Nat} (hbits : 32 ≤ bits) (rs : Random) (vec : List Int) {k : Int}
    (hk : IsInt k) (h1 : 1 ≤ k) (hsize : k ≤ vec.length) :
    (∃ x vec' rs', getKthItem (some intMax) bits rs vec k = .ok (x, vec', rs') ∧
      kth vec (k - 1).toNat = some x) ↔ vec.length ≤ intMax := by
  constructor
  · rintro ⟨x, vec', rs', hrun, -⟩
    by_contra hmax
    have hlen : 2 ≤ vec.length := by
      have : intMax = 2 ^ 31 - 1 := rfl
      omega
    have hassert : unsigned bits k ≤ vec.length := by
      rw [unsigned_of_nonneg hbits (by omega) hk]
      omega
    rw [getKthItem_error hassert (partition_overlong rs hlen (mt fits_some.mp hmax))] at hrun
    cases hrun
  · intro hmax
    exact getKthItem_smallest hbits rs hk h1 hsize (fits_some.mpr hmax)

theorem getKthItem_kth_third :
    ∃ x vec' rs', getKthItem (some intMax) 32 (Stream'.const 7) [31, 4, 15, 9, 4] 3 = .ok (x, vec', rs') ∧
      kth [31, 4, 15, 9, 4] 2 = some x :=
  (getKthItem_kth (by decide) _ [31, 4, 15, 9, 4] ⟨by decide, by decide⟩ (by decide) (by decide)).mpr
    (by decide)

/-- `2 ^ 31` zeros, with a `size_t` of 64 bits: there is no first of them. -/
theorem getKthItem_overflows :
    getKthItem (some intMax) 64 (Stream'.const 0) (List.replicate (2 ^ 31) 0) 1 = .error .overflow := by
  refine getKthItem_error ?_ (partition_overlong _ ?_ ?_) <;> rw [List.length_replicate]
  · decide
  · decide
  · exact mt fits_some.mp (by decide)

/-! ### The assertion -/

section

variable {limit : Option Nat} {bits : Nat} {vec : List Int} {k : Int}

/-- No call is made with an empty vector to divide by: `k` is not 0 in any call, and as an unsigned
number it is then at least 1, which the assertion compares with the size. -/
theorem getKthItem_ne_zeroDivision (hbits : 32 ≤ bits) (rs : Random) (hk : IsInt k) (h0 : k ≠ 0) :
    getKthItem limit bits rs vec k ≠ .error .zeroDivision := by
  induction hn : vec.length using Nat.strong_induction_on generalizing rs vec k with
  | _ n ih =>
    subst hn
    by_cases hassert : unsigned bits k ≤ vec.length
    · have hpos := unsigned_pos hbits h0 hk
      have hvec : vec ≠ [] := fun h => by simp [h] at hassert; omega
      obtain ⟨low, pivot, high, rs₁, hrun, hsplit⟩ | ⟨-, hrun⟩ :=
        partition_cases limit rs hvec
      · rw [getKthItem_eq hassert hrun]
        split_ifs with heq hgt
        · exact fun h => by cases h
        · exact ih _ hsplit.length_low_lt rs₁ hk h0 rfl
        · obtain ⟨hlow, hhigh⟩ := hk
          exact ih _ hsplit.length_high_lt rs₁ ⟨by omega, by omega⟩ (by omega) rfl
      · rw [getKthItem_error hassert hrun]
        exact fun h => by cases h
    · rw [getKthItem, if_neg hassert]
      exact fun h => by cases h

/-- With `k = 0` nothing is left in the end. -/
theorem getKthItem_zero (bits : Nat) (rs : Random) (hfit : Fits limit vec.length) :
    getKthItem limit bits rs vec 0 = .error .zeroDivision := by
  induction hn : vec.length using Nat.strong_induction_on generalizing rs vec with
  | _ n ih =>
    subst hn
    have hassert : unsigned bits 0 ≤ vec.length := by simp [unsigned]
    by_cases hvec : vec = []
    · subst hvec
      exact getKthItem_error hassert rfl
    · obtain ⟨low, pivot, high, rs₁, hrun, hsplit⟩ := partition_split rs hvec hfit
      have hlowlt := hsplit.length_low_lt
      rw [getKthItem_eq hassert hrun, if_neg (by omega), if_pos (by omega)]
      exact ih _ hlowlt rs₁ (hfit.mono hlowlt.le) rfl

end

/-- **The assertion lets one number too many pass.** A run divides by zero exactly for `k =
0`, whatever `random()` returns, with counters of any size that hold the places of the vector.
For the place `-1` the search always goes on in front, until the part in front is empty and
its size is the divisor. -/
theorem zeroDivision_iff {limit : Option Nat} {bits : Nat} (hbits : 32 ≤ bits) (rs : Random)
    (vec : List Int) {k : Int} (hk : IsInt k) (hfit : Fits limit vec.length) :
    getKthItem limit bits rs vec k ≠ .error .zeroDivision ↔ k ≠ 0 := by
  constructor
  · rintro h rfl
    exact h (getKthItem_zero bits rs hfit)
  · exact getKthItem_ne_zeroDivision hbits rs hk

/-- The third of five elements, two of them equal. -/
theorem zeroDivision_iff_third :
    getKthItem (some intMax) 32 (Stream'.const 7) [31, 4, 15, 9, 4] 3 ≠ .error .zeroDivision :=
  (zeroDivision_iff (by decide) _ [31, 4, 15, 9, 4] ⟨by decide, by decide⟩
    (fits_some.mpr (by decide))).mpr (by decide)

/-- Three elements and `k = 0`: the assertion passes, and the last call has nothing to choose
from. -/
theorem getKthItem_zero_three : unsigned 32 0 ≤ [3, 1, 2].length ∧
    getKthItem (some intMax) 32 (Stream'.const 7) [3, 1, 2] 0 = .error .zeroDivision :=
  ⟨by decide, getKthItem_zero 32 _ (fits_some.mpr (by decide))⟩

end BlogStuff.Algorithm
