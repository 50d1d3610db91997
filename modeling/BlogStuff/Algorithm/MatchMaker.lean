import Mathlib.Data.List.Count
import Mathlib.Tactic

/-!
# BlogStuff.Algorithm.MatchMaker

`MatchMaker::getBestMatches` of `topcoder/practice_room/inv_2001_a+b/250.cpp`, against the
problem statement in the head of the file.

A record is cut at its blanks into the name, the member's gender, the requested gender and the
answers. The loop that compares two records starts at index 2, which is the requested gender, so a
member who requests the same gender as the user has one match more than identical answers
(`matchCount_fields`). The names are returned in the order of the input, and nothing sorts them.

`getBestMatches_eq` says what the program returns for all records of the statement's form; the
comparison with the statement is about these lists of members alone.
-/

namespace BlogStuff.Algorithm.MatchMaker

/-- A `std::string`. -/
abbrev Text := List Char

/-! ### The program -/

/-- The loop of `split_string`: `piece` is what stands between `pos` and the current position. -/
def splitFrom (splitter : Char) (piece : Text) : Text → List Text
  -- the rest behind the last splitter is a piece unless it is empty
  | [] => if piece = [] then [] else [piece]
  | c :: str =>
      if c = splitter then piece :: splitFrom splitter [] str
      else splitFrom splitter (piece ++ [c]) str

/-- `split_string(str, splitter)`. -/
def splitString (str : Text) (splitter : Char) : List Text := splitFrom splitter [] str

/-- `match_count` after the inner loop, which runs while `i` is an index of both vectors. -/
def matchCount (e ele : List Text) : Nat :=
  (List.range' 2 (min e.length ele.length - 2)).foldl
    (fun count i => if e[i]? = ele[i]? then count + 1 else count) 0

/-- The body of the outer loop. The member asked for and those of the wrong gender are passed over;
`e` and `ele` are the fields of the two records, and a missing field is `none`. -/
def matchStep (ele : List Text) (sf : Int) (result : List Text) (input : Text) :
    Option (List Text) := do
  let e := splitString input ' '
  let name ← e[0]?
  if (← ele[0]?) = name then
    return result
  if (← ele[2]?) ≠ (← e[1]?) then
    return result
  if sf ≤ matchCount e ele then
    return result ++ [name]
  else
    return result

/-- `getBestMatches(param0, param1, param2)`. -/
def getBestMatches (members : List Text) (currentUser : Text) (sf : Int) : Option (List Text) :=
  members.foldlM (matchStep (splitString currentUser ' ') sf) []

/-! ### The statement -/

inductive Gender
  | male
  | female
  deriving DecidableEq, Repr

/-- An answer to one of the multiple-choice questions. -/
inductive Answer
  | a
  | b
  | c
  | d
  deriving DecidableEq, Repr

def Gender.letter : Gender → Char
  | male => 'M'
  | female => 'F'

def Answer.letter : Answer → Char
  | a => 'A'
  | b => 'B'
  | c => 'C'
  | d => 'D'

/-- The data of a valid record. -/
structure Member where
  name : Text
  gender : Gender
  requested : Gender
  answers : List Answer
  name_ne_nil : name ≠ []
  upper_of_mem_name : ∀ c ∈ name, 'A' ≤ c ∧ c ≤ 'Z'
  answers_ne_nil : answers ≠ []
  deriving DecidableEq

/-- The parts of a record: `NAME`, `G`, `D` and the answers. -/
def Member.fields (m : Member) : List Text :=
  m.name :: [m.gender.letter] :: [m.requested.letter] :: m.answers.map fun x => [x.letter]

/-- The record, `"NAME G D X X X"`. -/
def Member.record (m : Member) : Text := [' '].intercalate m.fields

/-- The number of identical answers. -/
def identical (m user : Member) : Nat :=
  (m.answers.zip user.answers).countP fun p => p.1 = p.2

/-- The other members of the requested gender with at least `sf` identical answers. -/
def suitable (members : List Member) (user : Member) (sf : Int) : List Member :=
  members.filter fun m => m ≠ user ∧ m.gender = user.requested ∧ sf ≤ identical m user

/-- `m` has at least as many identical answers as `m'`. -/
def AsGood (user m m' : Member) : Prop := identical m' user ≤ identical m user

instance (user : Member) : DecidableRel (AsGood user) := fun _ _ => Nat.decLe _ _

instance (user : Member) : Std.Total (AsGood user) := ⟨fun _ _ => Nat.le_total _ _⟩

instance (user : Member) : IsTrans Member (AsGood user) := ⟨fun _ _ _ h h' => h'.trans h⟩

/-- What the statement asks for: most identical answers first. Insertion is stable, so members
with the same number stay in the order of the input. -/
def bestMatches (members : List Member) (user : Member) (sf : Int) : List Member :=
  (suitable members user sf).insertionSort (AsGood user)

/-! ### Cutting a record -/

section

variable {splitter : Char} {w : Text} {ws : List Text}

theorem splitFrom_word (h : splitter ∉ w) (piece rest : Text) :
    splitFrom splitter piece (w ++ splitter :: rest) =
      (piece ++ w) :: splitFrom splitter [] rest := by
  induction w generalizing piece with
  | nil => simp [splitFrom]
  | cons c w ih =>
      obtain ⟨hc, hw⟩ := not_or.mp (List.mem_cons.not.mp h)
      rw [List.cons_append, splitFrom, if_neg (Ne.symm hc), ih hw, List.append_assoc]
      rfl

theorem splitFrom_last (h : splitter ∉ w) {piece : Text} (hne : piece ++ w ≠ []) :
    splitFrom splitter piece w = [piece ++ w] := by
  induction w generalizing piece with
  | nil =>
      rw [List.append_nil] at hne ⊢
      rw [splitFrom, if_neg hne]
  | cons c w ih =>
      obtain ⟨hc, hw⟩ := not_or.mp (List.mem_cons.not.mp h)
      rw [splitFrom, if_neg (Ne.symm hc), ih hw (by simp), List.append_assoc]
      rfl

/-- Words joined by the splitter are cut back into the words. They must not hold the splitter, and
must not be empty, since an empty one at the end would be dropped. -/
theorem splitString_intercalate (h : ∀ w ∈ ws, w ≠ [] ∧ splitter ∉ w) :
    splitString ([splitter].intercalate ws) splitter = ws := by
  rw [splitString]
  induction ws with
  | nil => rfl
  | cons w ws ih =>
      obtain ⟨hne, hw⟩ := h w List.mem_cons_self
      have hws : ∀ v ∈ ws, v ≠ [] ∧ splitter ∉ v := fun v hv => h v (List.mem_cons_of_mem w hv)
      cases ws with
      | nil =>
          rw [List.intercalate_singleton, splitFrom_last hw (by simpa using hne)]
          rfl
      | cons v ws =>
          rw [List.intercalate_cons_cons, List.append_assoc, List.singleton_append,
            splitFrom_word hw, ih hws]
          rfl

end

theorem Gender.letter_inj {g g' : Gender} : g.letter = g'.letter ↔ g = g' := by
  cases g <;> cases g' <;> decide

theorem Answer.letter_inj {x y : Answer} : x.letter = y.letter ↔ x = y := by
  cases x <;> cases y <;> decide

/-- The program reads the parts of a record: a name is of capitals and everything else is a single
letter, so no part is empty or holds a blank. -/
theorem splitString_record (m : Member) : splitString m.record ' ' = m.fields := by
  refine splitString_intercalate fun w hw => ?_
  rcases List.mem_cons.mp hw with rfl | hw
  · exact ⟨m.name_ne_nil, fun hmem => absurd (m.upper_of_mem_name ' ' hmem) (by decide)⟩
  · -- the other parts are single letters
    have hletter : ∃ c, w = [c] ∧ c ≠ ' ' := by
      rcases List.mem_cons.mp hw with rfl | hw
      · exact ⟨_, rfl, by cases m.gender <;> decide⟩
      · rcases List.mem_cons.mp hw with rfl | hw
        · exact ⟨_, rfl, by cases m.requested <;> decide⟩
        · obtain ⟨x, -, rfl⟩ := List.mem_map.mp hw
          exact ⟨_, rfl, by cases x <;> decide⟩
    obtain ⟨c, rfl, hc⟩ := hletter
    exact ⟨List.cons_ne_nil c [], fun hmem => hc (List.mem_singleton.mp hmem).symm⟩

/-! ### Counting -/

/-- The loop, from the first index behind `pre` and `pre'` on. The lists are generalised to their
rests, so that the induction goes along both at once. -/
theorem foldl_count (e ele pre pre' : List Text) (hlen : pre.length = pre'.length) (n : Nat) :
    (List.range' pre.length (min e.length ele.length)).foldl
        (fun count i => if (pre ++ e)[i]? = (pre' ++ ele)[i]? then count + 1 else count) n =
      n + (e.zip ele).countP fun p => p.1 = p.2 := by
  induction e generalizing ele pre pre' n with
  | nil => simp
  | cons x e ih =>
      cases ele with
      | nil => simp
      | cons y ele =>
          have hread : (pre ++ x :: e)[pre.length]? = (pre' ++ y :: ele)[pre.length]? ↔ x = y := by
            rw [List.getElem?_append_right le_rfl, List.getElem?_append_right hlen.ge, hlen]
            simp
          have hrest := ih ele (pre ++ [x]) (pre' ++ [y]) (by simp [hlen])
            (if x = y then n + 1 else n)
          rw [List.length_append, List.append_assoc, List.append_assoc] at hrest
          rw [List.length_cons, List.length_cons, Nat.succ_min_succ, List.range'_succ,
            List.foldl_cons, if_congr hread rfl rfl, List.zip_cons_cons, List.countP_cons]
          refine hrest.trans ?_
          by_cases hxy : x = y
          · simp only [hxy, if_true, decide_true]
            omega
          · simp only [hxy, if_false, decide_false, Bool.false_eq_true, Nat.add_zero]

/-- **The requested gender is counted like an answer.** The loop starts at the third field, and that
is the requested gender; the answers begin with the fourth. -/
theorem matchCount_fields (m user : Member) :
    matchCount m.fields user.fields =
      identical m user + if m.requested = user.requested then 1 else 0 := by
  have hcount := foldl_count (m.fields.drop 2) (user.fields.drop 2)
    [m.name, [m.gender.letter]] [user.name, [user.gender.letter]] rfl 0
  have hlen : min m.fields.length user.fields.length - 2 =
      min (m.fields.drop 2).length (user.fields.drop 2).length := by
    rw [List.length_drop, List.length_drop]
    omega
  have hanswers : ((m.answers.map fun x => [x.letter]).zip
      (user.answers.map fun x => [x.letter])).countP (fun p => p.1 = p.2) = identical m user := by
    rw [List.zip_map, List.countP_map]
    refine List.countP_congr fun p _ => ?_
    simp [Answer.letter_inj]
  rw [matchCount, hlen]
  refine hcount.trans ?_
  simp [Member.fields, List.countP_cons, hanswers, Gender.letter_inj]

/-! ### The result of the program -/

/-- The test of the program for a member. -/
def Returned (user : Member) (sf : Int) (m : Member) : Prop :=
  m.name ≠ user.name ∧ m.gender = user.requested ∧
    sf ≤ identical m user + if m.requested = user.requested then 1 else 0

instance (user : Member) (sf : Int) (m : Member) : Decidable (Returned user sf m) :=
  inferInstanceAs (Decidable (_ ∧ _ ∧ _))

theorem matchStep_record (user m : Member) (sf : Int) (result : List Text) :
    matchStep user.fields sf result m.record =
      some (if Returned user sf m then result ++ [m.name] else result) := by
  have hcount : sf ≤ matchCount m.fields user.fields ↔
      sf ≤ identical m user + if m.requested = user.requested then 1 else 0 := by
    rw [matchCount_fields]
    push_cast
    rfl
  have hname : m.fields[0]? = some m.name := rfl
  have hgender : m.fields[1]? = some [m.gender.letter] := rfl
  have huser : user.fields[0]? = some user.name := rfl
  have hrequested : user.fields[2]? = some [user.requested.letter] := rfl
  by_cases hsame : user.name = m.name
  · simp [matchStep, splitString_record, hname, huser, hsame, Returned]
  · by_cases hg : m.gender = user.requested
    · have hreturned : Returned user sf m ↔ sf ≤ matchCount m.fields user.fields := by
        rw [hcount, Returned]
        exact ⟨fun h => h.2.2, fun h => ⟨Ne.symm hsame, hg, h⟩⟩
      simp only [matchStep, splitString_record, hname, huser, hgender, hrequested, hg, hreturned,
        Option.bind_eq_bind, Option.bind_some, if_neg hsame, ne_eq, not_true, if_false]
      split_ifs <;> rfl
    · have hletters : user.requested.letter ≠ m.gender.letter :=
        fun h => hg (Gender.letter_inj.mp h.symm)
      simp [matchStep, splitString_record, hname, huser, hgender, hrequested, Returned, hg,
        hletters]

/-- **What the program returns**: the members that pass its test, in the order of the input. By
induction on the members, with whatever has been collected so far in front. -/
theorem getBestMatches_eq (members : List Member) (user : Member) (sf : Int) :
    getBestMatches (members.map Member.record) user.record sf =
      some ((members.filter fun m => Returned user sf m).map Member.name) := by
  have hloop : ∀ result, (members.map Member.record).foldlM (matchStep user.fields sf) result =
      some (result ++ (members.filter fun m => Returned user sf m).map Member.name) := by
    induction members with
    | nil => simp
    | cons m members ih =>
        intro result
        rw [List.map_cons, List.foldlM_cons, matchStep_record, Option.bind_eq_bind,
          Option.bind_some, ih]
        by_cases h : Returned user sf m
        · rw [if_pos h, List.filter_cons_of_pos (by simpa using h), List.map_cons,
            List.append_assoc]
          rfl
        · rw [if_neg h, List.filter_cons_of_neg (by simpa using h)]
  rw [getBestMatches, splitString_record, hloop, List.nil_append]

/-! ### The program and the statement -/

section

variable {members : List Member} {user : Member} {sf : Int}

theorem name_inj (hnames : (members.map Member.name).Nodup) {m m' : Member} (hm : m ∈ members)
    (hm' : m' ∈ members) : m.name = m'.name ↔ m = m' :=
  ⟨fun h => List.inj_on_of_nodup_map hnames hm hm' h, fun h => congrArg Member.name h⟩

/-- Lists of members are told apart by the names in them. -/
theorem eq_of_names_eq (hnames : (members.map Member.name).Nodup) {l l' : List Member}
    (hl : ∀ m ∈ l, m ∈ members) (hl' : ∀ m ∈ l', m ∈ members)
    (h : l.map Member.name = l'.map Member.name) : l = l' := by
  induction l generalizing l' with
  | nil => exact (List.map_eq_nil_iff.mp h.symm).symm
  | cons m l ih =>
      cases l' with
      | nil => exact absurd h (List.cons_ne_nil _ _)
      | cons m' l' =>
          obtain ⟨hname, hrest⟩ := List.cons.inj h
          rw [(name_inj hnames (hl m List.mem_cons_self) (hl' m' List.mem_cons_self)).mp hname,
            ih (fun x hx => hl x (List.mem_cons_of_mem m hx))
              (fun x hx => hl' x (List.mem_cons_of_mem m' hx)) hrest]

/-- A member who is one identical answer short and requests the same gender as the user. -/
def OneShort (user : Member) (sf : Int) (m : Member) : Prop :=
  m ≠ user ∧ m.gender = user.requested ∧ m.requested = user.requested ∧
    (identical m user : Int) = sf - 1

instance (user : Member) (sf : Int) (m : Member) : Decidable (OneShort user sf m) :=
  inferInstanceAs (Decidable (_ ∧ _ ∧ _ ∧ _))

/-- The program's test, in the words of the statement. -/
theorem returned_iff (hnames : (members.map Member.name).Nodup) (huser : user ∈ members)
    {m : Member} (hm : m ∈ members) :
    Returned user sf m ↔
      (m ≠ user ∧ m.gender = user.requested ∧ sf ≤ identical m user) ∨ OneShort user sf m := by
  rw [Returned, OneShort, ne_eq, name_inj hnames hm huser, ← and_or_left, ← and_or_left]
  refine and_congr_right fun _ => and_congr_right fun _ => ?_
  by_cases hreq : m.requested = user.requested
  · rw [if_pos hreq, and_iff_right hreq]
    omega
  · rw [if_neg hreq, add_zero, or_iff_left fun h => hreq h.1]

theorem mem_suitable {m : Member} : m ∈ suitable members user sf ↔
    m ∈ members ∧ m ≠ user ∧ m.gender = user.requested ∧ sf ≤ identical m user := by
  rw [suitable, List.mem_filter, decide_eq_true_eq]

theorem mem_bestMatches {m : Member} :
    m ∈ bestMatches members user sf ↔ m ∈ suitable members user sf :=
  List.mem_insertionSort (AsGood user)

end

/-- **The program meets its statement exactly if nobody is let in by the counted gender, and
the input already lists the suitable members from most identical answers to least.** The loop
compares the requested gender as if it were one more answer, and never sorts what it has
found. -/
theorem getBestMatches_meets_iff (members : List Member) (user : Member) (sf : Int)
    (hnames : (members.map Member.name).Nodup) (huser : user ∈ members) :
    getBestMatches (members.map Member.record) user.record sf =
        some ((bestMatches members user sf).map Member.name) ↔
      (∀ m ∈ members, ¬ OneShort user sf m) ∧
        (suitable members user sf).Pairwise (AsGood user) := by
  have hbest : ∀ m ∈ bestMatches members user sf, m ∈ members := fun m hm =>
    (mem_suitable.mp (mem_bestMatches.mp hm)).1
  have hfilter : (∀ m ∈ members, ¬ OneShort user sf m) →
      members.filter (fun m => Returned user sf m) = suitable members user sf := fun hshort =>
    List.filter_congr fun m hm => by
      rw [decide_eq_decide, returned_iff hnames huser hm, or_iff_left (hshort m hm)]
  rw [getBestMatches_eq, Option.some_inj]
  constructor
  · intro heq
    have hshort : ∀ m ∈ members, ¬ OneShort user sf m := by
      intro m hm hone
      -- the name of such a member is returned, but the member is not suitable
      have hname : m.name ∈ (members.filter fun m => Returned user sf m).map Member.name :=
        List.mem_map_of_mem (List.mem_filter.mpr
          ⟨hm, decide_eq_true ((returned_iff hnames huser hm).mpr (.inr hone))⟩)
      rw [heq] at hname
      obtain ⟨m', hm', hname'⟩ := List.mem_map.mp hname
      rw [name_inj hnames (hbest m' hm') hm] at hname'
      subst hname'
      have hsuitable := (mem_suitable.mp (mem_bestMatches.mp hm')).2.2.2
      rw [hone.2.2.2] at hsuitable
      omega
    rw [hfilter hshort] at heq
    have hlists := eq_of_names_eq hnames (fun m hm => (mem_suitable.mp hm).1) hbest heq
    refine ⟨hshort, ?_⟩
    rw [hlists]
    exact List.pairwise_insertionSort (AsGood user) (suitable members user sf)
  · intro hcond
    rw [hfilter hcond.1, bestMatches, hcond.2.insertionSort_eq]

/-! Three of the members of the examples in the statement. -/

def betty : Member :=
  ⟨"BETTY".toList, .female, .male, [.a, .a, .c, .c], by decide, by simp, by decide⟩

def tom : Member :=
  ⟨"TOM".toList, .male, .female, [.a, .d, .c, .a], by decide, by simp, by decide⟩

def joe : Member :=
  ⟨"JOE".toList, .male, .female, [.a, .a, .c, .a], by decide, by simp, by decide⟩

/-- With the better match in front, the program returns what the statement asks for. -/
theorem getBestMatches_meets_iff_sorted :
    getBestMatches ([betty, joe, tom].map Member.record) betty.record 2 =
      some ((bestMatches [betty, joe, tom] betty 2).map Member.name) :=
  (getBestMatches_meets_iff [betty, joe, tom] betty 2 (by decide) (by decide)).mpr
    ⟨by decide, by decide⟩

/-- In the order of the statement's first example the result is not sorted. -/
theorem getBestMatches_unsorted :
    ([betty, tom, joe].map Member.name).Nodup ∧ betty ∈ [betty, tom, joe] ∧
      getBestMatches ([betty, tom, joe].map Member.record) betty.record 2 =
        some ["TOM".toList, "JOE".toList] ∧
      (bestMatches [betty, tom, joe] betty 2).map Member.name =
        ["JOE".toList, "TOM".toList] := by
  decide +kernel

end BlogStuff.Algorithm.MatchMaker
