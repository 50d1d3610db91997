import BlogStuff.Cpp.Int
import BlogStuff.Seq.Loop
import Mathlib.Data.Finset.Card
import Mathlib.Order.Bounds.Basic

/-!
# BlogStuff.Algorithm.DistinctRun

`lengthOfLongestSubstring` of `leetcode/3_longest_substring_without_repeating_characters.cpp`.

From every start the inner loop takes characters as long as they are new, and stops at the first
repetition. A text that continues behind the repetition repeats a character as well, so the count
is the greatest length of a text without repetition from this start (`scan_greatest`). The set and
the counter are shared by all starts, and cleared between them.

The characters may be of any type with decidable equality. The counters are 32-bit `int`s: a text
longer than the largest of them has a start there at the latest, whose first character is new, and
`++j` overflows (`lengthOfLongestSubstring_eq_none`).
-/

namespace BlogStuff.Algorithm

open BlogStuff.Cpp BlogStuff.Seq

variable {α : Type} [DecidableEq α]

/-! ### The program -/

/-- The variables of `lengthOfLongestSubstring`. -/
structure Scan (α : Type) where
  appearedChars : Finset α
  count : Nat
  maxCount : Nat

/-- The inner loop, over the characters from `j` on. It breaks at the first character that has
appeared; both counters are checked, as they are `int`s. -/
def scan (v : Scan α) (j : Nat) : List α → Option (Scan α)
  | [] => some v
  | c :: rest =>
      if c ∉ v.appearedChars then do
        let count ← checked (v.count + 1)
        let j ← checked (j + 1)
        scan { v with appearedChars := insert c v.appearedChars, count := count } j rest
      else some v  -- break

/-- The body of the outer loop, and `++i`. -/
def scanFrom (s : List α) (v : Scan α) (i : Nat) : Option (Scan α) := do
  let v ← scan v i (s.drop i)
  let _ ← checked (i + 1)
  return ⟨∅, 0, if v.maxCount < v.count then v.count else v.maxCount⟩

/-- `lengthOfLongestSubstring(s)`. A counter that passes the largest `int` has no value. -/
def lengthOfLongestSubstring (s : List α) : Option Nat := do
  let v ← (List.range' 0 s.length).foldlM (scanFrom s) ⟨∅, 0, 0⟩
  return v.maxCount

/-! ### One start -/

/-- The lengths of the texts without repetition that stand at the beginning. -/
def distinctPrefixes (s : List α) : Set Nat := {n | ∃ t, t <+: s ∧ t.Nodup ∧ t.length = n}

/-- The lengths of the substrings without repetition. -/
def distinctSubstrings (s : List α) : Set Nat := {n | ∃ t, t <:+: s ∧ t.Nodup ∧ t.length = n}

/-- **The set and the counter stay in step**: behind the characters `seen`, the loop takes a part
of the rest that repeats nothing, and no longer part would do. -/
theorem scan_longest (seen s : List α) {j : Nat} (m : Nat) (hseen : seen.Nodup)
    (hj : seen.length ≤ j) (hmax : j + s.length ≤ intMax) :
    ∃ t, t <+: s ∧ (seen ++ t).Nodup ∧
      scan ⟨seen.toFinset, seen.length, m⟩ j s =
        some ⟨(seen ++ t).toFinset, (seen ++ t).length, m⟩ ∧
      ∀ u, u <+: s → (seen ++ u).Nodup → u.length ≤ t.length := by
  induction s generalizing seen j with
  | nil =>
      refine ⟨[], List.nil_prefix, by rwa [List.append_nil], by rw [List.append_nil]; rfl, ?_⟩
      intro u hu _
      rw [List.prefix_nil.mp hu]
  | cons c rest ih =>
      rw [List.length_cons] at hmax
      by_cases hc : c ∈ seen
      · refine ⟨[], List.nil_prefix, by rwa [List.append_nil], ?_, ?_⟩
        · rw [scan, if_neg (by simpa using hc), List.append_nil]
        · intro u hu hnodup
          -- a longer text would hold the repeated character
          cases u with
          | nil => exact le_rfl
          | cons d u =>
              obtain ⟨rfl, -⟩ := List.cons_prefix_cons.mp hu
              exact absurd hc (List.disjoint_of_nodup_append hnodup · List.mem_cons_self)
      · have hnext : (seen ++ [c]).Nodup :=
          List.nodup_append_comm.mp (List.nodup_cons.mpr ⟨hc, hseen⟩)
        have hlen : (seen ++ [c]).length = seen.length + 1 := by simp
        have hset : insert c seen.toFinset = (seen ++ [c]).toFinset := by
          rw [List.toFinset_append, Finset.union_comm]
          rfl
        obtain ⟨t, ht, hnodup, hscan, hlongest⟩ := ih (seen ++ [c]) (j := j + 1) hnext
          (by omega) (by omega)
        rw [← List.append_cons] at hnodup hscan
        refine ⟨c :: t, List.cons_prefix_cons.mpr ⟨rfl, ht⟩, hnodup, ?_, ?_⟩
        · have hcount : checked (seen.length + 1) = some _ := checked_of_le (by omega)
          have hnextJ : checked (j + 1) = some _ := checked_of_le (by omega)
          rw [scan, if_pos (by simpa using hc), hset]
          simp only [hcount, hnextJ, Option.bind_eq_bind, Option.bind_some]
          rwa [hlen] at hscan
        · intro u hu hu'
          cases u with
          | nil => exact Nat.zero_le _
          | cons d u =>
              obtain ⟨hdc, hrest⟩ := List.cons_prefix_cons.mp hu
              rw [hdc, List.append_cons] at hu'
              exact Nat.succ_le_succ (hlongest u hrest hu')

theorem scan_greatest (s : List α) {j : Nat} (m : Nat) (hmax : j + s.length ≤ intMax) :
    ∃ chars count, scan ⟨∅, 0, m⟩ j s = some ⟨chars, count, m⟩ ∧
      IsGreatest (distinctPrefixes s) count := by
  obtain ⟨t, ht, hnodup, hscan, hlongest⟩ :=
    scan_longest [] s (j := j) m List.nodup_nil (Nat.zero_le j) hmax
  refine ⟨_, _, hscan, ⟨t, ht, hnodup, rfl⟩, fun n hn => ?_⟩
  obtain ⟨u, hu, hnodup', rfl⟩ := hn
  exact hlongest u hu hnodup'

/-! ### All starts -/

/-- The lengths that the starts in front of `k` contribute. -/
def distinctFrom (s : List α) (k : Nat) : Set Nat :=
  insert 0 {n | ∃ i, i < k ∧ n ∈ distinctPrefixes (s.drop i)}

omit [DecidableEq α] in
theorem distinctFrom_succ (s : List α) (k : Nat) :
    distinctFrom s (k + 1) = distinctFrom s k ∪ distinctPrefixes (s.drop k) := by
  ext n
  simp only [distinctFrom, Set.mem_union, Set.mem_insert_iff, Set.mem_ofPred_eq, or_assoc]
  refine or_congr_right ?_
  constructor
  · intro h
    obtain ⟨i, hi, hn⟩ := h
    rcases Nat.lt_succ_iff_lt_or_eq.mp hi with hi | rfl
    · exact .inl ⟨i, hi, hn⟩
    · exact .inr hn
  · intro h
    rcases h with ⟨i, hi, hn⟩ | hn
    · exact ⟨i, Nat.lt_succ_of_lt hi, hn⟩
    · exact ⟨k, Nat.lt_succ_self k, hn⟩

omit [DecidableEq α] in
/-- Every substring stands at the beginning of what is left from some start on, so once the outer
loop has seen every start it has seen every substring. -/
theorem distinctFrom_length (s : List α) : distinctFrom s s.length = distinctSubstrings s := by
  ext n
  constructor
  · intro h
    rcases Set.mem_insert_iff.mp h with rfl | h
    · exact ⟨[], List.nil_infix, List.nodup_nil, rfl⟩
    · obtain ⟨i, -, t, ht, hnodup, hlen⟩ := h
      exact ⟨t, ht.isInfix.trans (List.drop_suffix i s).isInfix, hnodup, hlen⟩
  · intro h
    obtain ⟨t, ht, hnodup, rfl⟩ := h
    obtain ⟨before, behind, rfl⟩ := ht
    cases t with
    | nil => exact Set.mem_insert _ _
    | cons c t =>
        refine Set.mem_insert_of_mem _ ⟨before.length, ?_, c :: t, ?_, hnodup, rfl⟩
        · rw [List.length_append, List.length_append, List.length_cons]
          omega
        · rw [List.append_assoc, List.drop_left]
          exact List.prefix_append (c :: t) behind

/-- **A round of the outer loop takes one more start into account.** The parts that begin
there are prefixes of the rest of the text, and the scan takes the longest of them without a
repetition. -/
theorem scanFrom_greatest {s : List α} {k m : Nat} (hk : k < s.length) (hmax : s.length ≤ intMax)
    (h : IsGreatest (distinctFrom s k) m) :
    ∃ m', scanFrom s ⟨∅, 0, m⟩ k = some ⟨∅, 0, m'⟩ ∧ IsGreatest (distinctFrom s (k + 1)) m' := by
  obtain ⟨chars, count, hscan, hcount⟩ := scan_greatest (s.drop k) (j := k) m (by simp; omega)
  have hnext := h.union hcount
  rw [← distinctFrom_succ] at hnext
  refine ⟨_, ?_, hnext⟩
  rw [scanFrom, hscan, Option.bind_eq_bind, Option.bind_some, checked_of_le (by omega),
    Option.bind_eq_bind, Option.bind_some]
  split_ifs with hlt
  · rw [max_eq_right hlt.le]
    rfl
  · rw [max_eq_left (not_lt.mp hlt)]
    rfl

theorem scanFrom_cleared {s : List α} {v v' : Scan α} {i : Nat} (h : scanFrom s v i = some v') :
    ∃ m, v' = ⟨∅, 0, m⟩ := by
  simp only [scanFrom, Option.bind_eq_bind, Option.bind_eq_some_iff, pure, Option.some.injEq] at h
  obtain ⟨u, -, -, -, rfl⟩ := h
  exact ⟨_, rfl⟩

/-- The start that is the largest `int` cannot be passed. -/
theorem scanFrom_intMax {s : List α} (hmax : intMax < s.length) (m : Nat) :
    scanFrom s ⟨∅, 0, m⟩ intMax = none := by
  obtain ⟨c, rest, hdrop⟩ : ∃ c rest, s.drop intMax = c :: rest :=
    List.exists_cons_of_length_pos (by rw [List.length_drop]; omega)
  have hone : checked (0 + 1) = some 1 := checked_of_le (by decide)
  have hpast : checked (intMax + 1) = none := checked_of_lt (Nat.lt_succ_self intMax)
  rw [scanFrom, hdrop, scan, if_pos (by simp)]
  simp only [hone, hpast, Option.bind_eq_bind, Option.bind_some, Option.bind_none]

theorem lengthOfLongestSubstring_eq_none {s : List α} (hmax : intMax < s.length) :
    lengthOfLongestSubstring s = none := by
  have hloop := foldlM_range'_eq_none (f := scanFrom s) (P := fun v => ∃ m, v = ⟨∅, 0, m⟩)
    (s := ⟨∅, 0, 0⟩) (a := 0) (n := s.length) (k := intMax) ⟨0, rfl⟩
    (fun i v v' _ h => scanFrom_cleared h) (Nat.zero_le _) (by omega)
    (by rintro v ⟨m, rfl⟩; exact scanFrom_intMax hmax m)
  rw [lengthOfLongestSubstring, hloop]
  rfl

/-- **The length of a longest substring without repetition**, exactly for the texts whose
length is an `int`. Every substring begins somewhere, and each round of the outer loop settles
one beginning; the counters never exceed the length of the text. -/
theorem lengthOfLongestSubstring_greatest (s : List α) :
    (∃ n, lengthOfLongestSubstring s = some n ∧ IsGreatest (distinctSubstrings s) n) ↔
      s.length ≤ intMax := by
  constructor
  · rintro ⟨n, hrun, -⟩
    by_contra hmax
    rw [lengthOfLongestSubstring_eq_none (Nat.lt_of_not_le hmax)] at hrun
    cases hrun
  intro hmax
  have hstart : IsGreatest (distinctFrom s 0) 0 := by
    refine ⟨Set.mem_insert 0 _, fun n hn => ?_⟩
    rcases Set.mem_insert_iff.mp hn with rfl | hn
    · exact le_rfl
    · obtain ⟨i, hi, -⟩ := hn
      exact absurd hi (Nat.not_lt_zero i)
  have hloop := foldlM_range' (f := scanFrom s)
    (P := fun k v => ∃ m, v = ⟨∅, 0, m⟩ ∧ IsGreatest (distinctFrom s k) m) 0 s.length
    ⟨0, rfl, hstart⟩ fun k v _ hk hv => by
      obtain ⟨m, rfl, hm⟩ := hv
      obtain ⟨m', hround, hm'⟩ := scanFrom_greatest (by omega) hmax hm
      exact ⟨_, hround, m', rfl, hm'⟩
  obtain ⟨-, hrun, m, rfl, hm⟩ := hloop
  rw [Nat.zero_add, distinctFrom_length] at hm
  refine ⟨m, ?_, hm⟩
  rw [lengthOfLongestSubstring, hrun]
  rfl

example : lengthOfLongestSubstring "abcdcefcg".toList = some 4 := by decide +kernel

/-- A text of `2 ^ 31` characters and more has no result. -/
theorem lengthOfLongestSubstring_overflows :
    lengthOfLongestSubstring (List.replicate (2 ^ 31) 'a' ++ "bcdefg".toList) = none := by
  refine lengthOfLongestSubstring_eq_none ?_
  rw [List.length_append, List.length_replicate]
  decide

end BlogStuff.Algorithm
