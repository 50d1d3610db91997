import BlogStuff.Python.Str
import BlogStuff.Seq.Loop

/-!
# BlogStuff.Algorithm.Berlogging

The winner of the card game "Berlogging" (`codeforces/2/2a.py`).

The script keeps, for every player, the array of the points after each round. A player who
appears for the first time gets zeros for the rounds so far, and every round extends the arrays of
all players, so that position `t` of every array holds the points after `t` rounds
(`Recorded`). The winner is then read off the arrays: among the players with the greatest total
`m`, the one whose array reaches `m` at the least position.

Points may rise above `m` and fall again. That no two players reach `m` at the same position is a
fact about the game: a round changes the points of one player, and `m > 0` is reached in a round
(`changed_of_reached`).

A dictionary is a list of its items. The order in which Python goes through them is not
specified, so it is a parameter (`Iteration`).
-/

namespace BlogStuff.Algorithm.Berlogging

open BlogStuff.Python BlogStuff.Seq

/-- A round: the player's name and the score. -/
abbrev Round := Str × Int

/-- The items of `score_board`: names with the points after each round. -/
abbrev Board := List (Str × List Int)

/-- An order to go through the items of a dictionary. -/
structure Iteration where
  items : Board → Board
  perm : ∀ board, (items board).Perm board

/-! ### The script -/

/-- `index_of_numer_no_smaller_than(array, num)`; the loop that finds nothing returns `None`. -/
def indexOfNumerNoSmallerThan (array : List Int) (num : Int) : Option Nat :=
  array.findIdx? fun x => decide (num ≤ x)

/-- `r.append(r[-1] + score)`, or `r.append(r[-1])` for the other players. -/
def appendScore (round : Round) (item : Str × List Int) : Option (Str × List Int) := do
  let last ← item.2.getLast?
  return (item.1, item.2 ++ [if item.1 = round.1 then last + round.2 else last])

/-- `score_board[name] = [0 for j in xrange(i+1)]`, unless the name is known. -/
def register (board : Board) (i : Nat) (name : Str) : Board :=
  if board.any fun item => item.1 == name then board
  else (name, List.replicate (i + 1) 0) :: board

/-- The body of the loop over the rounds. -/
def playRound (order : Iteration) (board : Board) (round : Round × Nat) : Option Board :=
  (order.items (register board round.2 round.1.1)).mapM (appendScore round.1)

/-- The loop over the rounds. -/
def play (order : Iteration) (rounds : List Round) : Option Board :=
  rounds.zipIdx.foldlM (playRound order) []

/-- The order of the keys of `min`: `None` is below the numbers. -/
def keyOf : Option Nat → WithBot Nat
  | none => ⊥
  | some i => i

/-- `candidates`: the players with total `m`, with the index of their first entry that is not
below it. -/
def candidates (items : Board) (m : Int) : List (Str × Option Nat) :=
  -- every array has a last entry here, `max` has read them all
  let candidates := items.filter fun item => item.2.getLast? == some m
  candidates.map fun item => (item.1, indexOfNumerNoSmallerThan item.2 m)

/-- The lines after the loop: the name that is printed. -/
def printedName (order : Iteration) (board : Board) : Option Str := do
  let totals ← (order.items board).mapM fun item => item.2.getLast?
  let m ← totals.max?
  let first ← (candidates (order.items board) m).argmin fun candidate => keyOf candidate.2
  return first.1

/-- The name the script prints for a sequence of rounds. -/
def winner (order : Iteration) (rounds : List Round) : Option Str := do
  printedName order (← play order rounds)

/-! ### The game -/

/-- The points of a player at the end. -/
def total (rounds : List Round) (p : Str) : Int :=
  ((rounds.filter fun round => round.1 = p).map Prod.snd).sum

/-- The points of a player after `t` rounds (at the end, if there are no more than `t`). -/
def pointsAfter (rounds : List Round) (t : Nat) (p : Str) : Int := total (rounds.take t) p

/-- The names that occur. -/
def players (rounds : List Round) : List Str := rounds.map Prod.fst

/-- The rules: the player has the greatest total, and no other player with this total had as many
points in an earlier round. -/
structure Wins (rounds : List Round) (p : Str) : Prop where
  player : p ∈ players rounds
  greatest : ∀ q ∈ players rounds, total rounds q ≤ total rounds p
  first : ∃ t, total rounds p ≤ pointsAfter rounds t p ∧
    ∀ q ∈ players rounds, total rounds q = total rounds p →
      ∀ t', total rounds p ≤ pointsAfter rounds t' q → t ≤ t'

section

variable {rounds : List Round} {round : Round} {p q : Str} {t : Nat} {m : Int}

@[simp] theorem total_nil (p : Str) : total [] p = 0 := rfl

theorem total_concat (rounds : List Round) (round : Round) (p : Str) :
    total (rounds ++ [round]) p = if p = round.1 then total rounds p + round.2 else total rounds p := by
  by_cases h : p = round.1
  · simp [total, h]
  · simp [total, h, Ne.symm h]

theorem total_of_not_mem (h : p ∉ players rounds) : total rounds p = 0 := by
  have hnone : rounds.filter (fun round => round.1 = p) = [] := by
    rw [List.filter_eq_nil_iff]
    intro round hround heq
    exact h (List.mem_map.mpr ⟨round, hround, of_decide_eq_true heq⟩)
  rw [total, hnone]
  rfl

theorem pointsAfter_succ (hround : rounds[t]? = some round) (p : Str) :
    pointsAfter rounds (t + 1) p =
      if p = round.1 then pointsAfter rounds t p + round.2 else pointsAfter rounds t p := by
  rw [pointsAfter, List.take_add_one, hround]
  exact total_concat (rounds.take t) round p

/-- **A player who reaches `m` points in a round is the one the round names.** All others keep
the points they had, and those were below `m`. -/
theorem changed_of_reached (hm : 0 < m) (h : m ≤ pointsAfter rounds t p)
    (hbefore : ∀ t', m ≤ pointsAfter rounds t' p → t ≤ t') :
    ∃ k round, t = k + 1 ∧ rounds[k]? = some round ∧ round.1 = p := by
  cases t with
  | zero => exact absurd (hm.trans_le h) (lt_irrefl 0)
  | succ k =>
      -- the points after `k` rounds are still below `m`
      have hlt : pointsAfter rounds k p < m :=
        not_le.mp fun hle => Nat.not_succ_le_self k (hbefore k hle)
      cases hround : rounds[k]? with
      | none =>
          have hlen := List.getElem?_eq_none_iff.mp hround
          rw [pointsAfter, List.take_of_length_le hlen] at hlt
          rw [pointsAfter, List.take_of_length_le (Nat.le_succ_of_le hlen)] at h
          exact absurd h (not_le.mpr hlt)
      | some round =>
          refine ⟨k, round, rfl, hround, ?_⟩
          by_contra hne
          rw [pointsAfter_succ hround, if_neg (Ne.symm hne)] at h
          exact absurd h (not_le.mpr hlt)

/-- Somebody whose total is positive: the rules name one player at most. Two winners have the same
total and have reached it in the same round, in which one player's total changed. -/
theorem Wins.unique (hp : Wins rounds p) (hq : Wins rounds q) (hpos : ∃ r, 0 < total rounds r) :
    p = q := by
  obtain ⟨r, hr⟩ := hpos
  have hmem : r ∈ players rounds := by
    by_contra hnot
    exact absurd hr (by rw [total_of_not_mem hnot]; exact lt_irrefl 0)
  have htotal : total rounds p = total rounds q :=
    le_antisymm (hq.greatest p hp.player) (hp.greatest q hq.player)
  have hm : 0 < total rounds p := hr.trans_le (hp.greatest r hmem)
  obtain ⟨t, ht, hfirst⟩ := hp.first
  obtain ⟨u, hu, hfirst'⟩ := hq.first
  rw [← htotal] at hu hfirst'
  have htu : t = u :=
    le_antisymm (hfirst q hq.player htotal.symm u hu) (hfirst' p hp.player rfl t ht)
  subst htu
  obtain ⟨k, round, rfl, hround, rfl⟩ := changed_of_reached hm ht (hfirst p hp.player rfl)
  obtain ⟨k', round', heq, hround', rfl⟩ :=
    changed_of_reached hm hu (hfirst' q hq.player htotal.symm)
  cases Nat.succ.inj heq
  rw [hround] at hround'
  cases hround'
  rfl

end

/-! ### The score board -/

/-- The points after `0, 1, …` rounds. -/
def history (rounds : List Round) (p : Str) : List Int :=
  (List.range (rounds.length + 1)).map fun t => pointsAfter rounds t p

/-- The board holds the players so far, each with the history of its points. -/
def Recorded (rounds : List Round) (board : Board) : Prop :=
  ∀ item, item ∈ board ↔ item.1 ∈ players rounds ∧ item.2 = history rounds item.1

section

variable {rounds : List Round} {round : Round} {board : Board} {p : Str}

theorem history_concat (rounds : List Round) (round : Round) (p : Str) :
    history (rounds ++ [round]) p = history rounds p ++ [total (rounds ++ [round]) p] := by
  have hlen : (rounds ++ [round]).length = rounds.length + 1 := List.length_append
  rw [history, List.range_succ, List.map_append, hlen]
  refine congrArg₂ (· ++ ·) (List.map_congr_left fun t ht => ?_) ?_
  · rw [pointsAfter, List.take_append_of_le_length (Nat.lt_succ_iff.mp (List.mem_range.mp ht))]
    rfl
  · rw [List.map_singleton, pointsAfter, List.take_of_length_le hlen.le]

@[simp] theorem getLast?_history (rounds : List Round) (p : Str) :
    (history rounds p).getLast? = some (total rounds p) := by
  rw [history, List.range_succ, List.map_append, List.map_singleton, List.getLast?_concat,
    pointsAfter, List.take_length]

theorem history_of_not_mem (h : p ∉ players rounds) :
    history rounds p = List.replicate (rounds.length + 1) 0 := by
  rw [List.eq_replicate_iff]
  refine ⟨by rw [history, List.length_map, List.length_range], fun x hx => ?_⟩
  obtain ⟨t, -, rfl⟩ := List.mem_map.mp hx
  refine total_of_not_mem fun hmem => h ?_
  rw [players, List.map_take] at hmem
  exact List.mem_of_mem_take hmem

/-- The index of the first entry that is not below `m`, for a player who ends with `m` or more.
There is one, since the last entry of the history is where the player ends. -/
theorem indexOfNumerNoSmallerThan_history {m : Int} (h : m ≤ total rounds p) :
    ∃ t, indexOfNumerNoSmallerThan (history rounds p) m = some t ∧ m ≤ pointsAfter rounds t p ∧
      ∀ t', m ≤ pointsAfter rounds t' p → t ≤ t' := by
  cases hfind : indexOfNumerNoSmallerThan (history rounds p) m with
  | none =>
      -- the last entry is not below `m`
      have hlast := List.mem_of_getLast? (getLast?_history rounds p)
      have hnone := List.findIdx?_eq_none_iff.mp hfind _ hlast
      simp [h] at hnone
  | some t =>
      obtain ⟨hlt, hreached, hbefore⟩ := List.findIdx?_eq_some_iff_getElem.mp hfind
      simp only [history, List.getElem_map, List.getElem_range, decide_eq_true_eq] at hreached hbefore
      refine ⟨t, rfl, hreached, fun t' ht' => ?_⟩
      by_contra hnot
      exact hbefore t' (not_le.mp hnot) ht'

/-! ### A round of the script -/

theorem Recorded.known_iff (h : Recorded rounds board) :
    (board.any fun item => item.1 == p) = true ↔ p ∈ players rounds := by
  rw [List.any_eq_true]
  constructor
  · intro hp
    obtain ⟨item, hitem, heq⟩ := hp
    rw [← eq_of_beq heq]
    exact ((h item).mp hitem).1
  · intro hp
    exact ⟨(p, history rounds p), (h _).mpr ⟨hp, rfl⟩, beq_self_eq_true p⟩

/-- With the player of the round, everybody has an array for the rounds before it. A player who is
new gets zeros for them, which is what the history of an absent player is. -/
theorem Recorded.register (h : Recorded rounds board) (item : Str × List Int) :
    item ∈ register board rounds.length round.1 ↔
      item.1 ∈ players (rounds ++ [round]) ∧ item.2 = history rounds item.1 := by
  have hplayers : item.1 ∈ players (rounds ++ [round]) ↔
      item.1 ∈ players rounds ∨ item.1 = round.1 := by
    rw [players, List.map_append, List.mem_append]
    exact or_congr_right List.mem_singleton
  rw [Berlogging.register, hplayers]
  split_ifs with hknown
  · rw [h.known_iff] at hknown
    rw [h item]
    refine and_congr_left fun _ => ⟨Or.inl, fun hitem => hitem.elim id fun heq => ?_⟩
    rw [heq]
    exact hknown
  · rw [h.known_iff] at hknown
    rw [List.mem_cons, h item, or_and_right, or_comm]
    refine or_congr_right ?_
    rw [← history_of_not_mem hknown]
    constructor
    · intro heq
      rw [heq]
      exact ⟨rfl, rfl⟩
    · intro hitem
      exact Prod.ext hitem.1 (by rw [hitem.2, hitem.1])

/-- **A round extends every history by one entry.** The player of the round gets a new total
and all others the last one again; whoever is new has zeros up to here. -/
theorem playRound_recorded (order : Iteration) (h : Recorded rounds board) :
    ∃ board', playRound order board (round, rounds.length) = some board' ∧
      Recorded (rounds ++ [round]) board' := by
  have hitems : ∀ item, item ∈ order.items (register board rounds.length round.1) ↔
      item.1 ∈ players (rounds ++ [round]) ∧ item.2 = history rounds item.1 := fun item => by
    rw [(order.perm _).mem_iff, h.register]
  have hmap := mapM_eq_some (f := appendScore round)
    (g := fun item => (item.1, history (rounds ++ [round]) item.1))
    (l := order.items (register board rounds.length round.1)) fun item hitem => by
      rw [appendScore, ((hitems item).mp hitem).2, getLast?_history, history_concat, total_concat]
      rfl
  refine ⟨_, hmap, fun item => ?_⟩
  rw [List.mem_map]
  constructor
  · intro hitem
    obtain ⟨old, hold, rfl⟩ := hitem
    exact ⟨((hitems old).mp hold).1, rfl⟩
  · intro hitem
    exact ⟨(item.1, history rounds item.1), (hitems _).mpr ⟨hitem.1, rfl⟩,
      Prod.ext rfl hitem.2.symm⟩

theorem play_recorded (order : Iteration) (rounds : List Round) :
    ∃ board, play order rounds = some board ∧ Recorded rounds board := by
  induction rounds using List.reverseRecOn with
  | nil => exact ⟨[], rfl, fun item => by simp [players]⟩
  | append_singleton rounds round ih =>
      obtain ⟨board, hplay, hboard⟩ := ih
      obtain ⟨board', hround, hboard'⟩ : ∃ board',
          playRound order board (round, rounds.length) = some board' ∧
            Recorded (rounds ++ [round]) board' := playRound_recorded order hboard
      refine ⟨board', ?_, hboard'⟩
      rw [play] at hplay ⊢
      rw [List.zipIdx_append, List.foldlM_append, hplay, Nat.zero_add]
      simpa using hround

/-! ### The winner -/

theorem Recorded.mem_candidates (h : Recorded rounds board) {m : Int} {c : Str × Option Nat} :
    c ∈ candidates board m ↔ c.1 ∈ players rounds ∧ total rounds c.1 = m ∧
      c.2 = indexOfNumerNoSmallerThan (history rounds c.1) m := by
  rw [candidates, List.mem_map]
  constructor
  · intro hc
    obtain ⟨item, hitem, rfl⟩ := hc
    obtain ⟨hmem, hlast⟩ := List.mem_filter.mp hitem
    obtain ⟨hplayer, harray⟩ := (h item).mp hmem
    rw [harray, getLast?_history, beq_iff_eq] at hlast
    exact ⟨hplayer, Option.some.inj hlast, by rw [harray]⟩
  · intro hc
    obtain ⟨hplayer, htotal, hindex⟩ := hc
    refine ⟨(c.1, history rounds c.1), List.mem_filter.mpr ⟨(h _).mpr ⟨hplayer, rfl⟩, ?_⟩,
      Prod.ext rfl hindex.symm⟩
    rw [getLast?_history, htotal, beq_self_eq_true]

theorem Recorded.candidate (h : Recorded rounds board) {m : Int} (hp : p ∈ players rounds)
    (htotal : total rounds p = m) :
    (p, indexOfNumerNoSmallerThan (history rounds p) m) ∈ candidates board m :=
  h.mem_candidates.mpr ⟨hp, htotal, rfl⟩

theorem Recorded.wins_of_argmin (h : Recorded rounds board) {m : Int} {c : Str × Option Nat}
    (hgreatest : ∀ q ∈ players rounds, total rounds q ≤ m)
    (hc : c ∈ (candidates board m).argmin fun candidate => keyOf candidate.2) :
    Wins rounds c.1 := by
  obtain ⟨hplayer, htotal, hindex⟩ := h.mem_candidates.mp (List.argmin_mem hc)
  obtain ⟨t, ht, hreached, -⟩ := indexOfNumerNoSmallerThan_history htotal.ge
  refine ⟨hplayer, by rwa [htotal], t, by rwa [htotal], fun q hq htotal' t' ht' => ?_⟩
  rw [htotal] at htotal' ht'
  obtain ⟨u, hu, -, hbefore⟩ := indexOfNumerNoSmallerThan_history htotal'.ge
  have hle := List.le_of_mem_argmin (h.candidate hq htotal') hc
  rw [hindex, ht, hu] at hle
  exact (WithBot.coe_le_coe.mp hle).trans (hbefore t' ht')

/-- The lines after the loop find a player who wins: the candidates are those with the greatest
total, and the first of them by the round of that total is the one the rules name, in whatever order
the dictionary is walked. -/
theorem printedName_wins (order : Iteration) (h : Recorded rounds board) (hne : rounds ≠ []) :
    ∃ name, printedName order board = some name ∧ Wins rounds name := by
  have hitems : Recorded rounds (order.items board) := fun item => by
    rw [(order.perm _).mem_iff, h item]
  have htotals := mapM_eq_some (f := fun item : Str × List Int => item.2.getLast?)
    (g := fun item => total rounds item.1) (l := order.items board) fun item hitem => by
      rw [((hitems item).mp hitem).2, getLast?_history]
  obtain ⟨round, hround⟩ := List.exists_mem_of_ne_nil rounds hne
  have hsome := (hitems (round.1, history rounds round.1)).mpr
    ⟨List.mem_map_of_mem hround, rfl⟩
  cases hmax : ((order.items board).map fun item => total rounds item.1).max? with
  | none =>
      rw [List.max?_eq_none_iff, List.map_eq_nil_iff] at hmax
      exact absurd hsome (by rw [hmax]; exact List.not_mem_nil)
  | some m =>
      obtain ⟨hmem, hgreatest⟩ := List.max?_eq_some_iff.mp hmax
      obtain ⟨best, hbest, rfl⟩ := List.mem_map.mp hmem
      have hcandidate := hitems.candidate ((hitems best).mp hbest).1 rfl
      cases hfirst : (candidates (order.items board) (total rounds best.1)).argmin
          fun candidate => keyOf candidate.2 with
      | none =>
          rw [List.argmin_eq_none.mp hfirst] at hcandidate
          exact absurd hcandidate List.not_mem_nil
      | some c =>
          refine ⟨c.1, ?_, hitems.wins_of_argmin (fun q hq => ?_) hfirst⟩
          · simp only [printedName, htotals, hmax, hfirst, Option.bind_eq_bind, Option.bind_some]
            rfl
          · exact hgreatest _ (List.mem_map.mpr
              ⟨(q, history rounds q), (hitems _).mpr ⟨hq, rfl⟩, rfl⟩)

end

/-- **The script prints the winner, and there is one.** Every history has one entry for each
round, so the first round in which a finalist had the final score can be read off it; in each
round one player's total changes, so no two finalists reach it in the same round. -/
theorem winner_wins (order : Iteration) (rounds : List Round) (hpos : ∃ p, 0 < total rounds p) :
    ∃ name, winner order rounds = some name ∧ Wins rounds name ∧
      ∀ q, Wins rounds q → q = name := by
  have hne : rounds ≠ [] := by
    intro hnil
    obtain ⟨p, hp⟩ := hpos
    rw [hnil, total_nil] at hp
    exact lt_irrefl 0 hp
  obtain ⟨board, hplay, hboard⟩ := play_recorded order rounds
  obtain ⟨name, hprinted, hwins⟩ := printedName_wins order hboard hne
  refine ⟨name, ?_, hwins, fun q hq => hq.unique hwins hpos⟩
  rw [winner, hplay]
  exact hprinted

/-- Two players with the same total, in the order in which the items were added. -/
theorem winner_wins_sample :
    ∃ name, winner ⟨id, fun _ => .refl _⟩
        [("mike".toList, 3), ("andrew".toList, 5), ("mike".toList, 2)] = some name ∧
      Wins [("mike".toList, 3), ("andrew".toList, 5), ("mike".toList, 2)] name ∧
      ∀ q, Wins [("mike".toList, 3), ("andrew".toList, 5), ("mike".toList, 2)] q → q = name :=
  winner_wins ⟨id, fun _ => .refl _⟩
    [("mike".toList, 3), ("andrew".toList, 5), ("mike".toList, 2)] ⟨"mike".toList, by decide⟩

example : winner ⟨id, fun _ => .refl _⟩
    [("mike".toList, 3), ("andrew".toList, 5), ("mike".toList, 2)] = some "andrew".toList := by
  decide +kernel

end BlogStuff.Algorithm.Berlogging
