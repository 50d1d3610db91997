import BlogStuff.Seq.Loop
import BlogStuff.Seq.Mirror

/-!
# BlogStuff.Algorithm.Palindrome

`5_longest_palindromic_substring.cpp`: the longest palindrome in a text, from a table of the
palindromic intervals, and the table that stays in the object between calls.

A call fills the diagonal and the first row anew. The other cells it fills on demand, and only
those that hold the marker -1, which the constructor put there; so a cell keeps the answer for
the first text that was long enough for it. What it holds is still a `Mirror`, with each pair
of positions compared in the first text longer than both (`writer`). That is the invariant
between calls (`Stored`), and within a call each cell is unset or right (`Memo`).

For the first text of an object this is the palindromes of that text, and the answer is the
longest one. For later texts it need not be.
-/

namespace BlogStuff.Algorithm

open BlogStuff.Seq

/-! ### The program -/

/-- `MAXLEN`. -/
def maxLen : Nat := 1000

/-- A `Solution` object: its table, and the cell values that conditions have asked for so far.
The latter are not part of the program; they record what it reads as an answer. -/
structure Solution where
  matrix : Nat → Nat → Int
  asked : List Int

namespace Solution

/-- `Solution()`. -/
def fresh : Solution := ⟨fun _ _ => -1, []⟩

/-- `matrix[i][j]`, inside the table. -/
def read (t : Solution) (i j : Nat) : Option Int :=
  if i < maxLen ∧ j < maxLen then some (t.matrix i j) else none

/-- The object with another value in one cell. -/
def set (t : Solution) (i j : Nat) (v : Int) : Solution :=
  { t with matrix := fun a b => if a = i ∧ b = j then v else t.matrix a b }

/-- `matrix[i][j] = v`. -/
def write (t : Solution) (i j : Nat) (v : Int) : Option Solution :=
  if i < maxLen ∧ j < maxLen then some (t.set i j v) else none

/-- `matrix[i][j]` as a condition: any value but 0 counts as true. -/
def test (t : Solution) (i j : Nat) : Option (Bool × Solution) := do
  let v ← t.read i j
  return (v != 0, { t with asked := v :: t.asked })

@[simp] theorem set_self (t : Solution) (i j : Nat) (v : Int) : (t.set i j v).matrix i j = v :=
  if_pos ⟨rfl, rfl⟩

theorem set_of_ne (t : Solution) {i j a b : Nat} (h : ¬(a = i ∧ b = j)) (v : Int) :
    (t.set i j v).matrix a b = t.matrix a b := if_neg h

end Solution

/-- `isPalindromicString(s, start, end)`. -/
def isPalindromicString (s : List Char) (start last : Nat) : Option Int :=
  if last > start then do
    let a ← s[last]?
    let b ← s[start]?
    if a ≠ b then return 0 else isPalindromicString s (start + 1) (last - 1)
  else return 1
  termination_by last - start

/-- `i+1>j-1 || matrix[i+1][j-1]`. -/
def innerHolds (t : Solution) (i j : Nat) : Option (Bool × Solution) :=
  if i + 1 > j - 1 then some (true, t) else t.test (i + 1) (j - 1)

/-- `inner && s[i] == s[j]`: the characters are read only if the inner text is a palindrome. -/
def endsMatch (s : List Char) (inner : Bool) (i j : Nat) : Option Bool :=
  if inner then do
    let a ← s[i]?
    let b ← s[j]?
    return a == b
  else some false

/-- The second statement of `isPalindromicString_dp`. -/
def judge (s : List Char) (t : Solution) (i j : Nat) : Option Solution := do
  let (inner, t) ← innerHolds t i j
  let same ← endsMatch s inner i j
  t.write i j (if same then 1 else 0)

/-- `isPalindromicString_dp(s, i, j)`. The inner interval is computed first if its cell is unset, so
the recursion fills the diagonal from the inside. -/
def isPalindromicStringDp (s : List Char) (t : Solution) (i j : Nat) : Option Solution := do
  let t ← if i + 1 ≤ j - 1 then do
      let v ← t.read (i + 1) (j - 1)
      if v = -1 then isPalindromicStringDp s t (i + 1) (j - 1) else pure t
    else pure t
  judge s t i j
  termination_by j - i

/-- One round of the first loop of `longestPalindrome`. -/
def setDiagonal (s : List Char) (t : Solution) (i : Nat) : Option Solution := do
  let t ← t.write i i 1
  let v ← isPalindromicString s 0 i
  t.write 0 i v

/-- One round of the inner loop of the second one. -/
def fillCell (s : List Char) (i : Nat) (t : Solution) (j : Nat) : Option Solution := do
  let v ← t.read i j
  if v ≠ -1 then return t else isPalindromicStringDp s t i j

/-- One round of the second loop. -/
def fillRow (s : List Char) (t : Solution) (i : Nat) : Option Solution :=
  (List.range' (i + 1) (s.length - (i + 1))).foldlM (fillCell s i) t

/-- The last loop: the first interval whose cell is not 0. -/
def findLongest (s : List Char) : List (Nat × Nat) → Solution → Option (List Char × Solution)
  | [], t => some (s, t)
  | (i, j) :: rest, t => do
      let (hit, t) ← t.test i j
      if hit then return (between s i j, t) else findLongest s rest t

/-- `longestPalindrome(s)`. For the empty text the bound of the second loop is the largest
unsigned number, which no `int` reaches. -/
def longestPalindrome (t : Solution) (s : List Char) : Option (List Char × Solution) :=
  if s = [] then none
  else do
    let t ← (List.range s.length).foldlM (setDiagonal s) t
    let t ← (List.range' 1 (s.length - 2)).foldlM (fillRow s) t
    findLongest s (intervals s.length) t

/-- The texts that calls one after another return. -/
def calls (t : Solution) : List (List Char) → Option (List (List Char))
  | [] => some []
  | s :: ss => do
      let (p, t) ← longestPalindrome t s
      return p :: (← calls t ss)

example : (longestPalindrome .fresh "banana".toList).map Prod.fst = some "anana".toList := by
  decide +kernel

/-! ### The answers in the table -/

/-- The value of a cell answers a question. -/
def Answer (v : Int) (P : Prop) : Prop := (v = 1 ∧ P) ∨ (v = 0 ∧ ¬ P)

theorem Answer.ne_unset {v : Int} {P : Prop} (h : Answer v P) : v ≠ -1 := by
  rcases h with ⟨rfl, -⟩ | ⟨rfl, -⟩ <;> decide

theorem Answer.congr {v : Int} {P Q : Prop} (h : Answer v P) (hPQ : P ↔ Q) : Answer v Q := by
  rwa [Answer, ← hPQ]

theorem Answer.ne_zero_iff {v : Int} {P : Prop} (h : Answer v P) : v ≠ 0 ↔ P := by
  rcases h with ⟨rfl, hP⟩ | ⟨rfl, hP⟩ <;> simp [hP]

/-- The first of the texts that is longer than `b`. -/
def writer (ss : List (List Char)) (b : Nat) : List Char :=
  (ss.find? fun s => b < s.length).getD []

theorem writer_append {ss : List (List Char)} {j b : Nat} (h : ∃ r ∈ ss, j < r.length) (hb : b ≤ j)
    (s : List Char) : writer (ss ++ [s]) b = writer ss b := by
  obtain ⟨r, hr, hlen⟩ := h
  have hfound : (ss.find? fun s => b < s.length).isSome :=
    List.find?_isSome.mpr ⟨r, hr, by simpa using lt_of_le_of_lt hb hlen⟩
  rw [writer, writer, List.find?_append, Option.or_of_isSome hfound]

theorem writer_last {ss : List (List Char)} {s : List Char} {b : Nat}
    (h : ∀ r ∈ ss, r.length ≤ b) (hb : b < s.length) : writer (ss ++ [s]) b = s := by
  have hnone : (ss.find? fun s => b < s.length) = none := by
    refine List.find?_eq_none.mpr fun r hr => ?_
    simpa using h r hr
  rw [writer, List.find?_append, hnone, Option.none_or, List.find?_singleton]
  simp [hb]

/-- The table behind the texts `ss`, above the diagonal and below the first row: a cell is
unset if none of them was long enough, and else answers for the first that was. -/
def Cells (matrix : Nat → Nat → Int) (unset ss : List (List Char)) : Prop :=
  ∀ i j, 1 ≤ i → i < j → (matrix i j = -1 ∧ ∀ r ∈ unset, r.length ≤ j) ∨
    ((∃ r ∈ ss, j < r.length) ∧ Answer (matrix i j) (Mirror (writer ss) i j))

/-- **The object between two calls**, with the texts of the calls so far. -/
structure Stored (ss : List (List Char)) (t : Solution) : Prop where
  cells : Cells t.matrix ss ss
  asked : ∀ v ∈ t.asked, v ≠ -1

theorem stored_fresh : Stored [] .fresh where
  cells _ _ _ _ := .inl ⟨rfl, fun _ hr => absurd hr List.not_mem_nil⟩
  asked _ hv := absurd hv List.not_mem_nil

/-- **The object within a call** for `s`: the diagonal and the first row are right up to `k`,
and each other cell is unset or right. -/
structure Memo (ss : List (List Char)) (s : List Char) (k : Nat) (t : Solution) : Prop where
  cells : Cells t.matrix ss (ss ++ [s])
  diagonal : ∀ i, i < k → t.matrix i i = 1
  firstRow : ∀ j, j < k → Answer (t.matrix 0 j) (Mirror (fun _ => s) 0 j)
  asked : ∀ v ∈ t.asked, v ≠ -1

section

variable {ss : List (List Char)} {s : List Char} {k : Nat} {t t' : Solution}

theorem Stored.memo (h : Stored ss t) (s : List Char) : Memo ss s 0 t where
  cells i j hi hij := by
    rcases h.cells i j hi hij with hunset | ⟨hlong, hanswer⟩
    · exact .inl hunset
    · refine .inr ⟨?_, hanswer.congr (mirror_congr fun b hb => ?_)⟩
      · obtain ⟨r, hr, hlen⟩ := hlong
        exact ⟨r, List.mem_append_left _ hr, hlen⟩
      · exact (writer_append hlong hb s).symm
  diagonal i hi := absurd hi (Nat.not_lt_zero i)
  firstRow j hj := absurd hj (Nat.not_lt_zero j)
  asked := h.asked

theorem read_eq (hlen : s.length ≤ maxLen) {i j : Nat} (hi : i < s.length) (hj : j < s.length) :
    t.read i j = some (t.matrix i j) := if_pos ⟨by omega, by omega⟩

theorem write_eq (hlen : s.length ≤ maxLen) {i j : Nat} (hi : i < s.length) (hj : j < s.length)
    (v : Int) : t.write i j v = some (t.set i j v) := if_pos ⟨by omega, by omega⟩

/-! ### The diagonal and the first row -/

theorem isPalindromicString_answer (start : Nat) {last : Nat} (hlast : last < s.length) :
    ∃ v, isPalindromicString s start last = some v ∧ Answer v (Mirror (fun _ => s) start last) := by
  induction start, last using isPalindromicString.induct with
  | case1 start last hlt ih =>
      have hstart : start < s.length := by omega
      rw [isPalindromicString, if_pos hlt, List.getElem?_eq_getElem hlast,
        List.getElem?_eq_getElem hstart]
      simp only [Option.bind_eq_bind, Option.bind_some]
      have hstep := mirror_step (g := fun _ => s) hlt
      rw [List.getElem?_eq_getElem hlast, List.getElem?_eq_getElem hstart] at hstep
      split_ifs with hne
      · refine ⟨0, rfl, .inr ⟨rfl, fun hm => hne ?_⟩⟩
        exact (Option.some.inj (hstep.mp hm).1).symm
      · obtain ⟨v, hrun, hanswer⟩ := ih (by omega)
        refine ⟨v, hrun, hanswer.congr ?_⟩
        rw [hstep]
        simp [not_not.mp hne]
  | case2 start last hge =>
      rw [isPalindromicString, if_neg hge]
      exact ⟨1, rfl, .inl ⟨rfl, mirror_of_le _ (by omega)⟩⟩

theorem setDiagonal_memo (hlen : s.length ≤ maxLen) (h : Memo ss s k t) (hk : k < s.length) :
    ∃ t', setDiagonal s t k = some t' ∧ Memo ss s (k + 1) t' := by
  obtain ⟨v, hpal, hanswer⟩ := isPalindromicString_answer 0 hk
  have hrun : setDiagonal s t k = some ((t.set k k 1).set 0 k v) := by
    simp only [setDiagonal, write_eq hlen hk hk, hpal, write_eq hlen (Nat.zero_lt_of_lt hk) hk,
      Option.bind_eq_bind, Option.bind_some]
  refine ⟨_, hrun, ?_⟩
  -- outside the first row the second write changes nothing
  have hrest : ∀ a b, a ≠ 0 → ((t.set k k 1).set 0 k v).matrix a b = (t.set k k 1).matrix a b :=
    fun a b ha => Solution.set_of_ne _ (fun hab => ha hab.1) v
  exact
    { cells := fun i j hi hij => by
        rw [hrest i j (by omega), Solution.set_of_ne t (by omega)]
        exact h.cells i j hi hij
      diagonal := fun i hi => by
        rcases Nat.eq_zero_or_pos i with rfl | hpos
        · rcases Nat.eq_zero_or_pos k with rfl | hk0
          · -- the first row writes the corner as well, with the same value
            rw [Solution.set_self]
            rcases hanswer with ⟨hv, -⟩ | ⟨-, hnot⟩
            · exact hv
            · exact absurd (mirror_of_le _ le_rfl) hnot
          · rw [Solution.set_of_ne _ (by omega), Solution.set_of_ne _ (by omega)]
            exact h.diagonal 0 hk0
        · rw [hrest i i (by omega)]
          rcases Nat.lt_succ_iff_lt_or_eq.mp hi with hi | rfl
          · rw [Solution.set_of_ne _ (by omega)]
            exact h.diagonal i hi
          · exact Solution.set_self t i i 1
      firstRow := fun j hj => by
        rcases Nat.lt_succ_iff_lt_or_eq.mp hj with hj | rfl
        · rw [Solution.set_of_ne _ (by omega), Solution.set_of_ne _ (by omega)]
          exact h.firstRow j hj
        · rw [Solution.set_self]
          exact hanswer
      asked := h.asked }

/-! ### One cell and what it needs -/

theorem Memo.answer (h : Memo ss s s.length t) {i j : Nat} (hi : 1 ≤ i) (hij : i ≤ j)
    (hj : j < s.length) (hset : t.matrix i j ≠ -1) :
    Answer (t.matrix i j) (Mirror (writer (ss ++ [s])) i j) := by
  rcases Nat.eq_or_lt_of_le hij with rfl | hlt
  · exact .inl ⟨h.diagonal i hj, mirror_of_le _ le_rfl⟩
  · rcases h.cells i j hi hlt with ⟨hunset, -⟩ | ⟨-, hanswer⟩
    · exact absurd hunset hset
    · exact hanswer

/-- No cell is cleared. -/
def Grows (t t' : Solution) : Prop := ∀ a b, t.matrix a b ≠ -1 → t'.matrix a b ≠ -1

theorem Memo.set (h : Memo ss s s.length t) {i j : Nat} {v : Int} (hi : 1 ≤ i) (hij : i < j)
    (hj : j < s.length) (hv : Answer v (Mirror (writer (ss ++ [s])) i j)) :
    Memo ss s s.length (t.set i j v) where
  cells a b ha hab := by
    by_cases hcell : a = i ∧ b = j
    · obtain ⟨rfl, rfl⟩ := hcell
      refine .inr ⟨⟨s, List.mem_append_right _ (List.mem_singleton_self s), hj⟩, ?_⟩
      rw [Solution.set_self]
      exact hv
    · rw [Solution.set_of_ne t hcell]
      exact h.cells a b ha hab
  diagonal a ha := by
    rw [Solution.set_of_ne t (by omega)]
    exact h.diagonal a ha
  firstRow b hb := by
    rw [Solution.set_of_ne t (by omega)]
    exact h.firstRow b hb
  asked := h.asked

theorem Memo.ask (h : Memo ss s k t) {v : Int} (hv : v ≠ -1) :
    Memo ss s k { t with asked := v :: t.asked } where
  cells := h.cells
  diagonal := h.diagonal
  firstRow := h.firstRow
  asked := List.forall_mem_cons.mpr ⟨hv, h.asked⟩

theorem innerHolds_memo (hlen : s.length ≤ maxLen) (h : Memo ss s s.length t) {i j : Nat}
    (hj : j < s.length) (hinner : i + 1 ≤ j - 1 → t.matrix (i + 1) (j - 1) ≠ -1) :
    ∃ inner t', innerHolds t i j = some (inner, t') ∧ t'.matrix = t.matrix ∧
      (inner = true ↔ Mirror (writer (ss ++ [s])) (i + 1) (j - 1)) ∧ Memo ss s s.length t' := by
  unfold innerHolds
  split_ifs with hempty
  · refine ⟨true, t, rfl, rfl, ?_, h⟩
    exact iff_of_true rfl (mirror_of_le _ (by omega))
  · have hanswer := h.answer (i := i + 1) (j := j - 1) (by omega) (by omega) (by omega)
      (hinner (by omega))
    refine ⟨t.matrix (i + 1) (j - 1) != 0,
      { t with asked := t.matrix (i + 1) (j - 1) :: t.asked }, ?_, rfl, ?_, h.ask hanswer.ne_unset⟩
    · rw [Solution.test, read_eq hlen (by omega) (by omega)]
      rfl
    · rw [bne_iff_ne]
      exact hanswer.ne_zero_iff

theorem endsMatch_eq {i j : Nat} (hi : i < s.length) (hj : j < s.length) (inner : Bool) :
    ∃ same, endsMatch s inner i j = some same ∧ (same = true ↔ s[i]? = s[j]? ∧ inner = true) := by
  unfold endsMatch
  cases inner with
  | false => exact ⟨false, rfl, by simp⟩
  | true =>
      rw [List.getElem?_eq_getElem hi, List.getElem?_eq_getElem hj]
      exact ⟨s[i] == s[j], rfl, by simp⟩

/-- A cell is answered from the inner one, in the first text that is long enough: no earlier text
has written a cell in the column of its last letter. -/
theorem judge_memo (hlen : s.length ≤ maxLen) (h : Memo ss s s.length t) {i j : Nat} (hi : 1 ≤ i)
    (hij : i < j) (hj : j < s.length) (hfirst : ∀ r ∈ ss, r.length ≤ j)
    (hinner : i + 1 ≤ j - 1 → t.matrix (i + 1) (j - 1) ≠ -1) :
    ∃ t', judge s t i j = some t' ∧ Memo ss s s.length t' ∧ t'.matrix i j ≠ -1 ∧ Grows t t' := by
  have hi' : i < s.length := by omega
  obtain ⟨inner, t₁, hcond, hmatrix, hiff, hmemo⟩ := innerHolds_memo hlen h hj hinner
  obtain ⟨same, hsame, hsameIff⟩ := endsMatch_eq hi' hj inner
  have hv : Answer (if same = true then 1 else 0) (Mirror (writer (ss ++ [s])) i j) := by
    rw [mirror_step hij, writer_last hfirst hj, ← hiff, ← hsameIff]
    cases same with
    | true => exact .inl ⟨rfl, rfl⟩
    | false => exact .inr ⟨rfl, Bool.false_ne_true⟩
  have hrun : judge s t i j = some (t₁.set i j (if same = true then 1 else 0)) := by
    simp only [judge, hcond, hsame, Option.bind_eq_bind, Option.bind_some]
    exact write_eq hlen hi' hj _
  refine ⟨_, hrun, hmemo.set hi hij hj hv, ?_, fun a b hab => ?_⟩
  · rw [Solution.set_self]
    exact hv.ne_unset
  · by_cases hcell : a = i ∧ b = j
    · obtain ⟨rfl, rfl⟩ := hcell
      rw [Solution.set_self]
      exact hv.ne_unset
    · rw [Solution.set_of_ne _ hcell, hmatrix]
      exact hab

/-- **The recursion answers a cell**, and on the way the inner ones that are unset. It goes
inwards from both ends, to a cell that is set or to the diagonal. -/
theorem isPalindromicStringDp_memo (hlen : s.length ≤ maxLen) (h : Memo ss s s.length t) {i j : Nat}
    (hi : 1 ≤ i) (hij : i < j) (hj : j < s.length) (hunset : t.matrix i j = -1) :
    ∃ t', isPalindromicStringDp s t i j = some t' ∧ Memo ss s s.length t' ∧ t'.matrix i j ≠ -1 ∧
      Grows t t' := by
  induction hn : j - i using Nat.strong_induction_on generalizing t i j with
  | _ n ih =>
    subst hn
    have hfirst : ∀ r ∈ ss, r.length ≤ j := by
      rcases h.cells i j hi hij with ⟨-, hfirst⟩ | ⟨-, hanswer⟩
      · exact hfirst
      · exact absurd hunset hanswer.ne_unset
    rw [isPalindromicStringDp]
    by_cases hinner : i + 1 ≤ j - 1
    · simp only [if_pos hinner, read_eq hlen (show i + 1 < s.length by omega)
        (show j - 1 < s.length by omega), Option.bind_eq_bind, Option.bind_some]
      by_cases hcell : t.matrix (i + 1) (j - 1) = -1
      · -- it is no cell of the diagonal, as these are set
        have hlt : i + 1 < j - 1 := by
          refine lt_of_le_of_ne hinner fun heq => ?_
          rw [← heq, h.diagonal (i + 1) (by omega)] at hcell
          exact absurd hcell (by decide)
        obtain ⟨t₁, hrun, hmemo, hset, hgrows⟩ := ih _ (by omega) h (by omega) hlt (by omega) hcell rfl
        obtain ⟨t', hjudge, hmemo', hset', hgrows'⟩ :=
          judge_memo hlen hmemo hi hij hj hfirst fun _ => hset
        refine ⟨t', ?_, hmemo', hset', fun a b hab => hgrows' a b (hgrows a b hab)⟩
        rw [if_pos hcell, hrun]
        exact hjudge
      · rw [if_neg hcell]
        exact judge_memo hlen h hi hij hj hfirst fun _ => hcell
    · rw [if_neg hinner]
      exact judge_memo hlen h hi hij hj hfirst fun hle => absurd hle hinner

/-! ### The whole triangle -/

theorem fillCell_memo (hlen : s.length ≤ maxLen) (h : Memo ss s s.length t) {i j : Nat} (hi : 1 ≤ i)
    (hij : i < j) (hj : j < s.length) : ∃ t', fillCell s i t j = some t' ∧ Memo ss s s.length t' ∧
      t'.matrix i j ≠ -1 ∧ Grows t t' := by
  simp only [fillCell, read_eq hlen (show i < s.length by omega) hj, Option.bind_eq_bind,
    Option.bind_some]
  split_ifs with hset
  · exact ⟨t, rfl, h, hset, fun _ _ hab => hab⟩
  · exact isPalindromicStringDp_memo hlen h hi hij hj (not_not.mp hset)

theorem fillRow_memo (hlen : s.length ≤ maxLen) (h : Memo ss s s.length t) {i : Nat} (hi : 1 ≤ i)
    (hi' : i < s.length) : ∃ t', fillRow s t i = some t' ∧ Memo ss s s.length t' ∧
      (∀ j, i < j → j < s.length → t'.matrix i j ≠ -1) ∧ Grows t t' := by
  have hloop := foldlM_range' (f := fillCell s i) (s := t)
    (P := fun b u => Memo ss s s.length u ∧ (∀ j, i < j → j < b → u.matrix i j ≠ -1) ∧ Grows t u)
    (i + 1) (s.length - (i + 1)) ⟨h, fun j hij hj => by omega, fun _ _ hab => hab⟩
    fun b u hb hb' hu => by
      obtain ⟨hmemo, hset, hgrows⟩ := hu
      obtain ⟨u', hrun, hmemo', hset', hgrows'⟩ := fillCell_memo hlen hmemo hi hb (by omega)
      refine ⟨u', hrun, hmemo', fun j hij hj => ?_, fun a b hab => hgrows' a b (hgrows a b hab)⟩
      rcases Nat.lt_succ_iff_lt_or_eq.mp hj with hj | rfl
      · exact hgrows' i j (hset j hij hj)
      · exact hset'
  obtain ⟨t', hrun, hmemo, hset, hgrows⟩ := hloop
  exact ⟨t', hrun, hmemo, fun j hij hj => hset j hij (by omega), hgrows⟩

/-- Every cell of the triangle is set. -/
def Full (s : List Char) (t : Solution) : Prop :=
  ∀ i j, 1 ≤ i → i ≤ j → j < s.length → t.matrix i j ≠ -1

theorem fillRows_memo (hlen : s.length ≤ maxLen) (h : Memo ss s s.length t) :
    ∃ t', (List.range' 1 (s.length - 2)).foldlM (fillRow s) t = some t' ∧
      Memo ss s s.length t' ∧ Full s t' := by
  have hloop := foldlM_range' (f := fillRow s) (s := t)
    (P := fun a u => Memo ss s s.length u ∧
      ∀ i j, 1 ≤ i → i < a → i < j → j < s.length → u.matrix i j ≠ -1)
    1 (s.length - 2) ⟨h, fun i j hi ha => by omega⟩
    fun a u ha ha' hu => by
      obtain ⟨hmemo, hset⟩ := hu
      obtain ⟨u', hrun, hmemo', hset', hgrows⟩ := fillRow_memo hlen hmemo ha (by omega)
      refine ⟨u', hrun, hmemo', fun i j hi hia hij hj => ?_⟩
      rcases Nat.lt_succ_iff_lt_or_eq.mp hia with hia | rfl
      · exact hgrows i j (hset i j hi hia hij hj)
      · exact hset' j hij hj
  obtain ⟨t', hrun, hmemo, hset⟩ := hloop
  refine ⟨t', hrun, hmemo, fun i j hi hij hj => ?_⟩
  rcases Nat.eq_or_lt_of_le hij with rfl | hlt
  · rw [hmemo.diagonal i hj]
    decide
  · exact hset i j hi (by omega) hlt hj

theorem setDiagonals_memo (hlen : s.length ≤ maxLen) (h : Stored ss t) :
    ∃ t', (List.range s.length).foldlM (setDiagonal s) t = some t' ∧ Memo ss s s.length t' := by
  obtain ⟨t', hrun, hmemo⟩ := foldlM_range' (f := setDiagonal s) (P := fun k u => Memo ss s k u)
    0 s.length (h.memo s) fun k u _ hk hu => setDiagonal_memo hlen hu (by omega)
  rw [Nat.zero_add] at hmemo
  rw [List.range_eq_range']
  exact ⟨t', hrun, hmemo⟩

/-! ### The answer -/

/-- What the table says of an interval of `s`, behind the texts `ss`. -/
def Marked (ss : List (List Char)) (s : List Char) (i j : Nat) : Prop :=
  if i = 0 then Mirror (fun _ => s) 0 j else Mirror (writer (ss ++ [s])) i j

theorem Memo.marked (h : Memo ss s s.length t) (hfull : Full s t) {i j : Nat} (hij : i ≤ j)
    (hj : j < s.length) : Answer (t.matrix i j) (Marked ss s i j) := by
  unfold Marked
  split_ifs with hi
  · rw [hi]
    exact h.firstRow j hj
  · exact h.answer (by omega) hij hj (hfull i j (by omega) hij hj)

theorem Memo.stored (h : Memo ss s s.length t) (hfull : Full s t) : Stored (ss ++ [s]) t where
  cells i j hi hij := by
    rcases h.cells i j hi hij with ⟨hunset, hshort⟩ | hanswer
    · refine .inl ⟨hunset, fun r hr => ?_⟩
      rcases List.mem_append.mp hr with hr | hr
      · exact hshort r hr
      · obtain rfl := List.mem_singleton.mp hr
        exact not_lt.mp fun hj => hfull i j hi hij.le hj hunset
    · exact .inr hanswer
  asked := h.asked

/-- The scan stops at the first interval that is marked. All cells it reads are set, so each reading
is an answer; the ones before it were answered with no. -/
theorem findLongest_memo (hlen : s.length ≤ maxLen) (h : Memo ss s s.length t) (hfull : Full s t)
    {l : List (Nat × Nat)} (hl : ∀ x ∈ l, x.1 ≤ x.2 ∧ x.2 < s.length)
    (hex : ∃ x ∈ l, Marked ss s x.1 x.2) :
    ∃ pre i j post t', l = pre ++ (i, j) :: post ∧ (∀ x ∈ pre, ¬ Marked ss s x.1 x.2) ∧
      Marked ss s i j ∧ findLongest s l t = some (between s i j, t') ∧
      Memo ss s s.length t' ∧ Full s t' := by
  induction l generalizing t with
  | nil =>
      obtain ⟨x, hx, -⟩ := hex
      exact absurd hx List.not_mem_nil
  | cons x l ih =>
      obtain ⟨i, j⟩ := x
      obtain ⟨hij, hj⟩ := hl (i, j) List.mem_cons_self
      have hanswer := h.marked hfull hij hj
      have hmemo := h.ask hanswer.ne_unset
      have htest : t.test i j = some (t.matrix i j != 0, { t with asked := t.matrix i j :: t.asked }) := by
        rw [Solution.test, read_eq hlen (by omega) hj]
        rfl
      rw [findLongest, htest]
      simp only [Option.bind_eq_bind, Option.bind_some, bne_iff_ne]
      by_cases hmark : Marked ss s i j
      · rw [if_pos (hanswer.ne_zero_iff.mpr hmark)]
        exact ⟨[], i, j, l, _, rfl, fun x hx => absurd hx List.not_mem_nil, hmark, rfl, hmemo, hfull⟩
      · rw [if_neg fun hne => hmark (hanswer.ne_zero_iff.mp hne)]
        have hex' : ∃ x ∈ l, Marked ss s x.1 x.2 := by
          obtain ⟨x, hx, hx'⟩ := hex
          rcases List.mem_cons.mp hx with rfl | hx
          · exact absurd hx' hmark
          · exact ⟨x, hx, hx'⟩
        obtain ⟨pre, a, b, post, t', rfl, hpre, hab, hrun, hrest⟩ :=
          ih hmemo hfull (fun x hx => hl x (.tail _ hx)) hex'
        refine ⟨(i, j) :: pre, a, b, post, t', rfl, ?_, hab, hrun, hrest⟩
        exact List.forall_mem_cons.mpr ⟨hmark, hpre⟩

/-- **A call returns the longest interval the table marks**, and leaves the table of one text
more. -/
theorem longestPalindrome_stored (h : Stored ss t) (hne : s ≠ []) (hlen : s.length ≤ maxLen) :
    ∃ i j t', longestPalindrome t s = some (between s i j, t') ∧
      Longest (Marked ss s) s.length i j ∧ Stored (ss ++ [s]) t' := by
  have hpos : 0 < s.length := List.length_pos_iff.mpr hne
  obtain ⟨t₁, hrun₁, hmemo₁⟩ := setDiagonals_memo hlen h
  obtain ⟨t₂, hrun₂, hmemo₂, hfull₂⟩ := fillRows_memo hlen hmemo₁
  -- the first character alone is marked
  have hex : ∃ x ∈ intervals s.length, Marked ss s x.1 x.2 :=
    ⟨(0, 0), mem_intervals.mpr ⟨le_rfl, hpos⟩, (if_pos rfl).mpr (mirror_of_le _ le_rfl)⟩
  obtain ⟨pre, i, j, post, t', hsplit, hpre, hmark, hrun, hmemo, hfull⟩ :=
    findLongest_memo hlen hmemo₂ hfull₂ (fun x hx => mem_intervals.mp hx) hex
  refine ⟨i, j, t', ?_, longest_of_first hsplit hpre hmark, hmemo.stored hfull⟩
  rw [longestPalindrome, if_neg hne, hrun₁, Option.bind_eq_bind, Option.bind_some, hrun₂]
  exact hrun

theorem marked_nil {i j : Nat} (hj : j < s.length) : Marked [] s i j ↔ Mirror (fun _ => s) i j := by
  unfold Marked
  split_ifs with hi
  · rw [hi]
  · refine mirror_congr fun b hb => ?_
    exact writer_last (fun r hr => absurd hr List.not_mem_nil) (by omega)

theorem longestPalindrome_first (hne : s ≠ []) (hlen : s.length ≤ maxLen) :
    ∃ i j t', longestPalindrome .fresh s = some (between s i j, t') ∧
      Longest (Mirror fun _ => s) s.length i j ∧ Stored [s] t' := by
  obtain ⟨i, j, t', hrun, hlongest, hstored⟩ := longestPalindrome_stored stored_fresh hne hlen
  exact ⟨i, j, t', hrun, hlongest.congr fun a b _ hb => marked_nil hb, hstored⟩

/-- The longest palindrome in a text, of several the leftmost. -/
def IsLongestPalindrome (s p : List Char) : Prop :=
  p.Palindrome ∧ ∃ i, i + p.length ≤ s.length ∧ p = (s.drop i).take p.length ∧
    ∀ a n, a + n ≤ s.length → ((s.drop a).take n).Palindrome →
      n < p.length ∨ (n = p.length ∧ i ≤ a)

theorem isLongestPalindrome_between {i j : Nat} (h : Longest (Mirror fun _ => s) s.length i j) :
    IsLongestPalindrome s (between s i j) := by
  obtain ⟨⟨hij, hj, hmirror⟩, hmax⟩ := h
  have hlength := length_between hij hj
  refine ⟨(palindrome_between_iff hij hj).mpr hmirror, i, by omega, by rw [hlength, between], ?_⟩
  intro a n han hpal
  cases n with
  | zero => exact .inl (by omega)
  | succ n =>
      -- a palindrome of `n + 1` characters is the interval from `a` to `a + n`
      have hbetween : (s.drop a).take (n + 1) = between s a (a + n) := by
        rw [between, Nat.add_sub_cancel_left]
      rw [hbetween, palindrome_between_iff (by omega) (by omega)] at hpal
      have := hmax a (a + n) (by omega) (by omega) hpal
      omega

end

/-- **The first call returns the longest palindrome**, reads no cell outside the table, and
takes no unset cell for an answer. The table is filled before the last loop, and this tries
the intervals from the longest to the shortest, so the first whose cell is not 0 is longest.
-/
theorem longestPalindrome_correct (s : List Char) (hne : s ≠ []) (hlen : s.length ≤ maxLen) :
    ∃ p t, longestPalindrome .fresh s = some (p, t) ∧ IsLongestPalindrome s p ∧
      ∀ v ∈ t.asked, v ≠ -1 := by
  obtain ⟨i, j, t, hrun, hlongest, hstored⟩ := longestPalindrome_first hne hlen
  exact ⟨_, t, hrun, isLongestPalindrome_between hlongest, hstored.asked⟩

theorem longestPalindrome_correct_banana :
    ∃ p t, longestPalindrome .fresh "banana".toList = some (p, t) ∧
      IsLongestPalindrome "banana".toList p ∧ ∀ v ∈ t.asked, v ≠ -1 :=
  longestPalindrome_correct "banana".toList (by decide) (by decide)

/-! ### Calls on one object -/

/-- The calls return what they would on objects of their own. -/
def Independent (ss : List (List Char)) : Prop :=
  calls .fresh ss = ss.mapM fun s => (longestPalindrome .fresh s).map Prod.fst

instance (ss : List (List Char)) : Decidable (Independent ss) :=
  inferInstanceAs (Decidable (calls .fresh ss = _))

/-- The longest interval of `s` that the table marks behind the texts `ss` has the text of the
longest palindrome. -/
def Undisturbed (ss : List (List Char)) (s : List Char) : Prop :=
  ∃ i j a b, Longest (Mirror fun _ => s) s.length i j ∧ Longest (Marked ss s) s.length a b ∧
    between s i j = between s a b

/-- The texts of a sequence, each with those in front of it, have a property. This is the form in
which the loop over the texts is unrolled. -/
theorem forall_splits_cons {α : Type} {P : List α → α → Prop} {x : α} {xs : List α} :
    (∀ pre y post, x :: xs = pre ++ y :: post → P pre y) ↔
      P [] x ∧ ∀ pre y post, xs = pre ++ y :: post → P (x :: pre) y := by
  constructor
  · intro h
    exact ⟨h [] x xs rfl, fun pre y post hxs => h (x :: pre) y post (by rw [hxs]; rfl)⟩
  · intro h pre y post hxs
    cases pre with
    | nil =>
        obtain ⟨rfl, -⟩ := List.cons.inj hxs
        exact h.1
    | cons z pre =>
        obtain ⟨rfl, htail⟩ := List.cons.inj hxs
        exact h.2 pre y post htail

/-- Calls on an object that has seen the texts `seen`. By induction on the calls: each one leaves an
object that has seen one text more, and returns what a new object would exactly if it is
undisturbed. -/
theorem calls_stored {seen : List (List Char)} {t : Solution} (h : Stored seen t)
    (ss : List (List Char)) (hss : ∀ s ∈ ss, s ≠ [] ∧ s.length ≤ maxLen) :
    ∃ shared own, calls t ss = some shared ∧
      (ss.mapM fun s => (longestPalindrome .fresh s).map Prod.fst) = some own ∧
      (shared = own ↔ ∀ pre s post, ss = pre ++ s :: post → Undisturbed (seen ++ pre) s) := by
  induction ss generalizing seen t with
  | nil => exact ⟨[], [], rfl, rfl, by simp⟩
  | cons s ss ih =>
      obtain ⟨⟨hne, hlen⟩, hss⟩ := List.forall_mem_cons.mp hss
      obtain ⟨a, b, t', hrun, hmarked, hstored⟩ := longestPalindrome_stored h hne hlen
      obtain ⟨i, j, t₁, hrun₁, hlongest, -⟩ := longestPalindrome_first hne hlen
      obtain ⟨shared, own, hshared, hown, hiff⟩ := ih hstored hss
      refine ⟨between s a b :: shared, between s i j :: own, ?_, ?_, ?_⟩
      · rw [calls, hrun]
        simp [hshared]
      · rw [List.mapM_cons, hrun₁, hown]
        rfl
      · -- both intervals are determined by the texts
        have hfirst : between s a b = between s i j ↔ Undisturbed seen s := by
          constructor
          · intro heq
            exact ⟨i, j, a, b, hlongest, hmarked, heq.symm⟩
          · intro hund
            obtain ⟨i', j', a', b', hlongest', hmarked', heq⟩ := hund
            obtain ⟨rfl, rfl⟩ := hlongest.unique hlongest'
            obtain ⟨rfl, rfl⟩ := hmarked.unique hmarked'
            exact heq.symm
        rw [List.cons.injEq, hfirst, hiff, forall_splits_cons, List.append_nil]
        simp only [List.append_assoc, List.singleton_append]

/-- **Calls on one object are independent exactly if no text is disturbed by the earlier
ones.** Most cells of the table are set once and kept, so for an interval that an earlier call
has set, a later one gets the answer for the earlier text. -/
theorem independent_iff (ss : List (List Char)) (hss : ∀ s ∈ ss, s ≠ [] ∧ s.length ≤ maxLen) :
    Independent ss ↔ ∀ pre s post, ss = pre ++ s :: post → Undisturbed pre s := by
  obtain ⟨shared, own, hshared, hown, hiff⟩ := calls_stored stored_fresh ss hss
  rw [Independent, hshared, hown, Option.some.injEq, hiff]
  simp only [List.nil_append]

theorem independent_iff_nan : Undisturbed ["banana".toList] "nan".toList :=
  (independent_iff ["banana".toList, "nan".toList] (by decide)).mp (by decide +kernel) _ _ [] rfl

/-- The second call finds the cell of `"bc"` set by the first. -/
theorem stale_cell : calls .fresh ["xaa".toList, "abc".toList] = some ["aa".toList, "bc".toList] ∧
    (longestPalindrome .fresh "abc".toList).map Prod.fst = some "a".toList ∧
    ¬ Independent ["xaa".toList, "abc".toList] := by
  decide +kernel

end BlogStuff.Algorithm
