import BlogStuff.Adepends.Variables

/-!
# BlogStuff.Adepends.Calls

`FUNCTION_CALL_RX`, read once. A call begins with `$(`, the name of its function and a space
(`openingAt`). Behind the space the pattern looks for a closing bracket in the `reach` of the
call: arguments, an optional comma and blanks, which may cover several lines, and the rest of
the line behind them. It takes the *last* one there is, since `(.*)` is greedy.

`search_eq_firstCall` says that the pattern finds exactly these calls; giving back what a
repetition took never helps it. `expandFun_eq` is `expand_fun` over the call found so.
-/

namespace BlogStuff.Adepends

open BlogStuff.Python

/-! ### Calls in a text -/

/-- `,{0,1}` in front of a text. -/
def dropComma : Str → Str
  | ',' :: s => s
  | s => s

/-- The arguments of a call behind the leading ones of group 2, an optional comma and
blanks. -/
def lineStart (r : Str) : Str := (dropComma (r.dropWhile isArgChar)).dropWhile isBlank

/-- The text up to the end of the line. -/
def restOfLine (s : Str) : Str := s.takeWhile (· != '\n')

/-- What a call whose arguments begin `r` does not see: `(.*)` stops at the end of a
line. -/
def beyond (r : Str) : Str := (lineStart r).dropWhile (· != '\n')

/-- The text in which the pattern looks for the closing bracket. -/
def reach (r : Str) : Str := r.take (r.length - (beyond r).length)

/-- `$(name ` at the front of a text: the name, and the text behind the space. -/
def openingAt : Str → Option (Str × Str)
  | '$' :: '(' :: s =>
      match s.takeWhile Char.isLower, s.dropWhile Char.isLower with
      | c :: name, ' ' :: r => some (c :: name, r)
      | _, _ => none
  | _ => none

/-- A call and the text around it. -/
structure Call where
  before : Str
  name : Str
  args : Str
  after : Str

/-- The call with more text in front. -/
def Call.behind (s : Str) (call : Call) : Call := { call with before := s ++ call.before }

/-- The call with more text behind it. -/
def Call.followed (s : Str) (call : Call) : Call := { call with after := call.after ++ s }

/-- The groups of the match. -/
def Call.groups (call : Call) : Groups :=
  [(3, call.args.dropWhile isArgChar), (2, call.args.takeWhile isArgChar), (1, call.name)]

/-- A call at the front of a text. The arguments run to the last closing bracket in reach, since the
pattern's last group is greedy. -/
def callAt (t : Str) : Option Call :=
  match openingAt t with
  | none => none
  | some (name, r) =>
      match rpartition ')' (reach r) with
      | (args, true, after) => some ⟨[], name, args, after ++ beyond r⟩
      | (_, false, _) => none

/-- The call `expand_fun` carries out. -/
def firstCall : Str → Option Call
  | [] => none
  | c :: s =>
      match callAt (c :: s) with
      | some call => some call
      | none => (firstCall s).map (Call.behind [c])

/-! ### The pattern -/

theorem callAt_of_no_opening {t : Str} (h : openingAt t = none) : callAt t = none := by
  rw [callAt, h]

theorem callAt_of_not_mem {t name r : Str} (h : openingAt t = some (name, r))
    (hr : ')' ∉ reach r) : callAt t = none := by
  rw [callAt, h]
  dsimp only
  rw [rpartition_of_not_mem hr]

theorem callAt_of_reach {t name r args after : Str} (h : openingAt t = some (name, r))
    (hr : reach r = args ++ ')' :: after) (ha : ')' ∉ after) :
    callAt t = some ⟨[], name, args, after ++ beyond r⟩ := by
  rw [callAt, h]
  dsimp only
  rw [hr, rpartition_append ha]

/-- What a call is made of: an opening, then everything it can reach up to the last closing bracket.
The pattern is greedy, so it is the last bracket and not the matching one. -/
theorem of_callAt {t : Str} {call : Call} (h : callAt t = some call) :
    ∃ r after, openingAt t = some (call.name, r) ∧ call.before = [] ∧
      reach r = call.args ++ ')' :: after ∧ ')' ∉ after ∧ call.after = after ++ beyond r := by
  cases hopen : openingAt t with
  | none =>
      rw [callAt_of_no_opening hopen] at h
      cases h
  | some p =>
      obtain ⟨name, r⟩ := p
      rcases last_char ')' (reach r) with hno | ⟨args, after, hr, ha⟩
      · rw [callAt_of_not_mem hopen hno] at h
        cases h
      · rw [callAt_of_reach hopen hr ha] at h
        obtain rfl := Option.some.inj h
        exact ⟨r, after, rfl, rfl, hr, ha, rfl⟩

theorem openingAt_eq_some_iff {t name r : Str} : openingAt t = some (name, r) ↔
    t = '$' :: '(' :: (name ++ ' ' :: r) ∧ name ≠ [] ∧ ∀ c ∈ name, c.isLower = true := by
  constructor
  · intro h
    unfold openingAt at h
    split at h
    · next s =>
        split at h
        · next c n r' htake hdrop =>
            obtain ⟨rfl, rfl⟩ := Prod.mk.inj (Option.some.inj h)
            refine ⟨?_, List.cons_ne_nil _ _, fun d hd => ?_⟩
            · rw [← htake, ← hdrop, List.takeWhile_append_dropWhile]
            · rw [← htake] at hd
              exact List.mem_takeWhile_imp hd
        · cases h
    · cases h
  · intro h
    obtain ⟨rfl, hne, hname⟩ := h
    cases name with
    | nil => exact absurd rfl hne
    | cons c n =>
        have htake : (c :: n ++ ' ' :: r).takeWhile Char.isLower = c :: n := by
          rw [List.takeWhile_append_of_pos hname, List.takeWhile_cons_of_neg (by decide), List.append_nil]
        have hdrop : (c :: n ++ ' ' :: r).dropWhile Char.isLower = ' ' :: r := by
          rw [List.dropWhile_append_of_pos hname, List.dropWhile_cons_of_neg (by decide)]
        rw [openingAt, htake, hdrop]
        rfl

/-- The part of the arguments before the last line holds no closing bracket, since none of the three
character classes it is made of has one. -/
theorem exists_lineStart (r : Str) : ∃ a, r = a ++ lineStart r ∧ ')' ∉ a := by
  have hdrop : ∀ (p : Char → Bool) (s : Str), p ')' = false →
      ∃ a, s = a ++ s.dropWhile p ∧ ')' ∉ a := by
    intro p s hp
    refine ⟨s.takeWhile p, List.takeWhile_append_dropWhile.symm, fun hmem => ?_⟩
    rw [List.mem_takeWhile_imp hmem] at hp
    cases hp
  have hcomma : ∀ s : Str, ∃ a, s = a ++ dropComma s ∧ ')' ∉ a := by
    intro s
    unfold dropComma
    split
    · exact ⟨[','], rfl, by decide⟩
    · exact ⟨[], rfl, by simp⟩
  obtain ⟨a, ha, ha'⟩ := hdrop isArgChar r (by decide)
  obtain ⟨b, hb, hb'⟩ := hcomma (r.dropWhile isArgChar)
  obtain ⟨c, hc, hc'⟩ := hdrop isBlank (dropComma (r.dropWhile isArgChar)) (by decide)
  refine ⟨a ++ b ++ c, ?_, by simp [ha', hb', hc']⟩
  rw [lineStart, List.append_assoc, ← hc, List.append_assoc, ← hb, ← ha]

theorem reach_append_beyond (r : Str) : reach r ++ beyond r = r := by
  obtain ⟨a, ha, -⟩ := exists_lineStart r
  have hsuffix : beyond r <:+ r := (List.dropWhile_suffix _).trans ⟨a, ha.symm⟩
  exact List.suffix_iff_eq_append.mp hsuffix

theorem exists_reach (r : Str) : ∃ a, reach r = a ++ restOfLine (lineStart r) ∧ ')' ∉ a := by
  obtain ⟨a, ha, hno⟩ := exists_lineStart r
  refine ⟨a, ?_, hno⟩
  have hline : restOfLine (lineStart r) ++ beyond r = lineStart r :=
    List.takeWhile_append_dropWhile
  have hall : reach r ++ beyond r = a ++ restOfLine (lineStart r) ++ beyond r := by
    rw [reach_append_beyond, List.append_assoc, hline, ← ha]
  exact List.append_cancel_right hall

theorem mem_restOfLine_cons {c : Char} {s : Str} (h : ')' ∈ restOfLine (c :: s)) (hc : c ≠ ')') :
    ')' ∈ restOfLine s := by
  rw [restOfLine, List.takeWhile_cons] at h
  split_ifs at h
  · exact (List.mem_cons.mp h).resolve_left (Ne.symm hc)
  · cases h

theorem mem_restOfLine_dropWhile {p : Char → Bool} (hp : ∀ c, p c = true → c ≠ ')') {s : Str}
    (h : ')' ∈ restOfLine s) : ')' ∈ restOfLine (s.dropWhile p) := by
  induction s with
  | nil => exact h
  | cons c s ih =>
      by_cases hc : p c = true
      · rw [List.dropWhile_cons_of_pos hc]
        exact ih (mem_restOfLine_cons h (hp c hc))
      · rwa [List.dropWhile_cons_of_neg hc]

theorem ne_paren_of_isBlank (c : Char) (h : isBlank c = true) : c ≠ ')' := by
  rintro rfl
  exact absurd h (by decide)

theorem ne_paren_of_isArgChar (c : Char) (h : isArgChar c = true) : c ≠ ')' := by
  rintro rfl
  exact absurd h (by decide)

theorem dropComma_cons {c : Char} (hc : c ≠ ',') (s : Str) : dropComma (c :: s) = c :: s := by
  unfold dropComma
  split
  · next heq => exact absurd (List.cons.inj heq).1 hc
  · rfl

theorem mem_restOfLine_skip {s : Str} (h : ')' ∈ restOfLine s) :
    ')' ∈ restOfLine ((dropComma s).dropWhile isBlank) := by
  refine mem_restOfLine_dropWhile ne_paren_of_isBlank ?_
  unfold dropComma
  split
  · exact mem_restOfLine_cons h (by decide)
  · exact h

section Pattern

open Regex

/-- `,{0,1}\s*(.*)`. -/
def restRx : Regex := .seqs [.opt (.chr (· == ',')), .many isBlank, .many (· != '\n')]

variable {α : Type} {k : Str → Groups → Option α} {g : Groups}

theorem runLine_isSome (hk : ∀ u, (k u g).isSome ↔ u.head? = some ')') (s : Str) :
    (runMany (· != '\n') (fun u => k u g) s).isSome ↔ ')' ∈ restOfLine s :=
  runMany_to_isSome hk (by decide) s

theorem or_eq_left_of_isSome {a b : Option α} (h : b.isSome → a.isSome) : a.or b = a := by
  cases a with
  | some a => rfl
  | none =>
      rw [Option.none_or, ← Option.not_isSome_iff_eq_none]
      exact fun hb => absurd (h hb) (by simp)

/-- Group 3 in front of a closing bracket: nothing is gained by giving back blanks or the
comma. -/
theorem run_restRx (hk : ∀ u, (k u g).isSome ↔ u.head? = some ')') (s : Str) :
    run restRx s g k =
      runMany (· != '\n') (fun u => k u g) ((dropComma s).dropWhile isBlank) := by
  have hblanks : ∀ w, runMany isBlank (runMany (· != '\n') fun u => k u g) w =
      runMany (· != '\n') (fun u => k u g) (w.dropWhile isBlank) := by
    refine runMany_eq_dropWhile fun c u hc h => ?_
    rw [runLine_isSome hk] at h ⊢
    exact mem_restOfLine_cons h (ne_paren_of_isBlank c hc)
  have hrun : run restRx s g k =
      (run (.chr (· == ',')) s g fun w _ => runMany isBlank (runMany (· != '\n') fun u => k u g) w).or
        (runMany isBlank (runMany (· != '\n') fun u => k u g) s) := rfl
  rw [hrun, hblanks]
  cases s with
  | nil => rfl
  | cons c s =>
      by_cases hc : c = ','
      · subst hc
        have hcomma : run (.chr (· == ',')) (',' :: s) g (fun w _ =>
            runMany isBlank (runMany (· != '\n') fun u => k u g) w) =
              runMany (· != '\n') (fun u => k u g) (s.dropWhile isBlank) := hblanks s
        rw [hcomma, dropComma]
        refine or_eq_left_of_isSome fun h => ?_
        rw [runLine_isSome hk] at h ⊢
        rw [List.dropWhile_cons_of_neg (by decide)] at h
        exact mem_restOfLine_dropWhile ne_paren_of_isBlank (mem_restOfLine_cons h (by decide))
      · have hno : run (.chr (· == ',')) (c :: s) g (fun w _ =>
            runMany isBlank (runMany (· != '\n') fun u => k u g) w) = none := by
          rw [run, if_neg (by simpa using hc)]
        rw [hno, Option.none_or, dropComma_cons hc]

/-- Group 3, or nothing, in front of the closing bracket. -/
def closeRx : Regex := .seqs [.opt (.group 3 restRx), .chr (· == ')')]

/-- The match whose group 3 ends, and whose closing bracket stands, in front of `u`. -/
def closed (s : Str) (g : Groups) (u : Str) : Option (Str × Groups) :=
  run (.chr (· == ')')) u ((3, s.take (s.length - u.length)) :: g) fun after g' => some (after, g')

theorem closed_isSome (s : Str) (g : Groups) (u : Str) :
    (closed s g u).isSome ↔ u.head? = some ')' := by
  rw [closed, run_chr_isSome]
  cases u with
  | nil => simp
  | cons c u => simp

theorem run_closeRx (s : Str) (g : Groups) :
    run closeRx s g (fun after g' => some (after, g')) =
      runMany (· != '\n') (closed s g) ((dropComma s).dropWhile isBlank) := by
  have hgroup : run (.group 3 restRx) s g (fun u g' =>
      run (.chr (· == ')')) u g' fun after g' => some (after, g')) =
        runMany (· != '\n') (closed s g) ((dropComma s).dropWhile isBlank) :=
    run_restRx (closed_isSome s g) s
  have hrun : run closeRx s g (fun after g' => some (after, g')) =
      (run (.group 3 restRx) s g fun u g' =>
        run (.chr (· == ')')) u g' fun after g' => some (after, g')).or
          (run (.chr (· == ')')) s g fun after g' => some (after, g')) := rfl
  rw [hrun, hgroup]
  -- without group 3 the bracket comes first, and then group 3 finds it too
  refine or_eq_left_of_isSome fun h => ?_
  obtain ⟨c, t, rfl, hc, -⟩ := run_chr_isSome.mp h
  obtain rfl : c = ')' := by simpa using hc
  refine (runMany_to_isSome (closed_isSome _ g) (by decide) _).mpr (mem_restOfLine_skip ?_)
  rw [restOfLine, List.takeWhile_cons_of_pos (by decide)]
  exact List.mem_cons_self

/-- The arguments and the closing bracket. -/
def argsClosedRx : Regex :=
  .seqs [.group 2 (.many isArgChar), .opt (.group 3 restRx), .chr (· == ')')]

/-- Group 2 takes all it can. Giving back one of its characters would not help: a bracket that
closes the call behind fewer characters also closes it behind all of them. -/
theorem run_argsClosedRx (r : Str) (g : Groups) :
    run argsClosedRx r g (fun after g' => some (after, g')) =
      runMany (· != '\n') (closed (r.dropWhile isArgChar) ((2, r.takeWhile isArgChar) :: g))
        (lineStart r) := by
  have hrun : run argsClosedRx r g (fun after g' => some (after, g')) =
      runMany isArgChar (fun s => run closeRx s ((2, r.take (r.length - s.length)) :: g)
        fun after g' => some (after, g')) r := rfl
  have hdrop := runMany_eq_dropWhile (p := isArgChar)
    (k := fun s => run closeRx s ((2, r.take (r.length - s.length)) :: g)
      fun after g' => some (after, g')) ?_ r
  · rw [hrun, hdrop, run_closeRx, take_sub_dropWhile, lineStart]
  · intro c u hc h
    rw [run_closeRx, runMany_to_isSome (closed_isSome _ _) (by decide)] at h ⊢
    have hline : ')' ∈ restOfLine (c :: u) := by
      have hcomma : c ≠ ',' := by
        rintro rfl
        exact absurd hc (by decide)
      have hblank : ¬ isBlank c = true := by
        intro hb
        simp only [isBlank, Bool.or_eq_true, beq_iff_eq, or_assoc] at hb
        rcases hb with rfl | rfl | rfl | rfl | rfl | rfl
        all_goals exact absurd hc (by decide)
      rwa [dropComma_cons hcomma, List.dropWhile_cons_of_neg hblank] at h
    exact mem_restOfLine_skip (mem_restOfLine_cons hline (ne_paren_of_isArgChar c hc))

/-- A text up to a closing bracket, cut at the end of its arguments. -/
theorem span_paren (args s : Str) :
    (args ++ ')' :: s).takeWhile isArgChar = args.takeWhile isArgChar ∧
      (args ++ ')' :: s).dropWhile isArgChar = args.dropWhile isArgChar ++ ')' :: s := by
  induction args with
  | nil => exact ⟨List.takeWhile_cons_of_neg (by decide), List.dropWhile_cons_of_neg (by decide)⟩
  | cons c args ih =>
      by_cases hc : isArgChar c = true
      · simp [hc, ih]
      · simp [hc]

/-- The arguments as `callAt` reads them. The greedy group 3 runs to the end of the line and gives
back, so the last bracket of the line closes the call. -/
theorem run_argsClosedRx_eq (r name : Str) :
    run argsClosedRx r [(1, name)] (fun after g' => some (after, g')) =
      match rpartition ')' (reach r) with
      | (args, true, after) => some (after ++ beyond r, Call.groups ⟨[], name, args, after ++ beyond r⟩)
      | (_, false, _) => none := by
  obtain ⟨a, hreach, ha⟩ := exists_reach r
  rw [run_argsClosedRx, hreach]
  rcases last_char ')' (restOfLine (lineStart r)) with hno | ⟨b, c, hline, hc⟩
  · rw [rpartition_of_not_mem (by simp [ha, hno]), ← Option.not_isSome_iff_eq_none,
      runMany_to_isSome (closed_isSome _ _) (by decide)]
    exact hno
  · -- the last bracket in sight closes the call
    have hr : r = (a ++ b) ++ ')' :: (c ++ beyond r) := by
      conv_lhs => rw [← reach_append_beyond r, hreach, hline]
      simp
    obtain ⟨htake, hdrop⟩ := span_paren (a ++ b) (c ++ beyond r)
    rw [← hr] at htake hdrop
    have hgroup : (r.dropWhile isArgChar).take
        ((r.dropWhile isArgChar).length - (')' :: (c ++ beyond r)).length) =
          (a ++ b).dropWhile isArgChar := by
      rw [hdrop, List.length_append, Nat.add_sub_cancel, List.take_left]
    rw [hline, ← List.append_assoc, rpartition_append hc,
      runMany_to_last (closed_isSome _ _) hline hc]
    change closed _ _ (')' :: (c ++ beyond r)) = some _
    rw [htake, closed, hgroup]
    rfl

/-- The name of the function ends at the space: a run of lower case letters that gave one back would
be followed by a letter. -/
theorem matchAt_of_opening {t name r : Str} (h : openingAt t = some (name, r)) :
    functionCallRx.matchAt t =
      run argsClosedRx r [(1, name)] (fun after g' => some (after, g')) := by
  obtain ⟨rfl, hne, hname⟩ := openingAt_eq_some_iff.mp h
  cases name with
  | nil => exact absurd rfl hne
  | cons c n =>
      -- what is matched behind the name, and the groups it starts with
      let spaced (s : Str) : Option (Str × Groups) :=
        run (.chr (· == ' ')) s
          [(1, (c :: n ++ ' ' :: r).take ((c :: n ++ ' ' :: r).length - s.length))] fun s' g =>
            run argsClosedRx s' g fun after g' => some (after, g')
      have hrun : functionCallRx.matchAt ('$' :: '(' :: (c :: n ++ ' ' :: r)) =
          if c.isLower then runMany Char.isLower spaced (n ++ ' ' :: r) else none :=
        run_lit_append "$(".toList (c :: n ++ ' ' :: r) [] fun s g =>
          run (.seqs [.group 1 (.many1 Char.isLower), .chr (· == ' '), .group 2 (.many isArgChar),
            .opt (.group 3 restRx), .chr (· == ')')]) s g fun after g' => some (after, g')
      have hname' : ∀ d ∈ n, d.isLower = true := fun d hd => hname d (List.mem_cons_of_mem _ hd)
      have hdrop := runMany_eq_dropWhile (p := Char.isLower) (k := spaced) ?_ (n ++ ' ' :: r)
      · rw [hrun, if_pos (hname c List.mem_cons_self), hdrop, List.dropWhile_append_of_pos hname',
          List.dropWhile_cons_of_neg (by decide)]
        change run argsClosedRx r [(1, _)] _ = _
        rw [List.length_append, Nat.add_sub_cancel, List.take_left]
      · intro d u hd hsome
        obtain ⟨e, u, heq, he, -⟩ := run_chr_isSome.mp hsome
        obtain rfl : e = ' ' := by simpa using he
        rw [(List.cons.inj heq).1] at hd
        exact absurd hd (by decide)

/-- Without the beginning of a call there is none: a match of the pattern consumes `$(`, a name and
a blank first, and that is an opening. -/
theorem matchAt_of_no_opening {t : Str} (h : openingAt t = none) :
    functionCallRx.matchAt t = none := by
  rw [← Option.not_isSome_iff_eq_none]
  intro hsome
  obtain ⟨b, rfl, hname⟩ := run_lit_isSome.mp hsome
  rw [run_seqs_cons, run, many1, run] at hname
  obtain ⟨c, b, rfl, hc, hmany⟩ := run_chr_isSome.mp hname
  obtain ⟨n, b, rfl, hn, hspace⟩ := runMany_isSome.mp hmany
  beta_reduce at hspace
  rw [run_seqs_cons] at hspace
  obtain ⟨d, b, rfl, hd, -⟩ := run_chr_isSome.mp hspace
  obtain rfl : d = ' ' := beq_iff_eq.mp hd
  have hopen : openingAt ("$(".toList ++ c :: (n ++ ' ' :: b)) = some (c :: n, b) := by
    refine openingAt_eq_some_iff.mpr ⟨rfl, List.cons_ne_nil _ _, ?_⟩
    simpa [hc] using hn
  rw [hopen] at h
  cases h

/-- **The pattern at a place.** -/
theorem matchAt_functionCallRx (t : Str) :
    functionCallRx.matchAt t = (callAt t).map fun call => (call.after, call.groups) := by
  unfold callAt
  cases hopen : openingAt t with
  | none => exact matchAt_of_no_opening hopen
  | some p =>
      obtain ⟨name, r⟩ := p
      rw [matchAt_of_opening hopen, run_argsClosedRx_eq]
      dsimp only
      split
      · rfl
      · rfl

/-- **The pattern in a text.** Both go through the text from the left and stop at the first place
with a match, and at one place they agree. -/
theorem search_eq_firstCall (x : Str) : functionCallRx.search x =
    (firstCall x).map fun call => (call.before, call.groups, call.after) := by
  induction x with
  | nil => rfl
  | cons c s ih =>
      rw [search, firstCall, matchAt_functionCallRx, ih]
      cases hcall : callAt (c :: s) with
      | none =>
          cases hfirst : firstCall s with
          | none => rfl
          | some call => rfl
      | some call =>
          obtain ⟨-, -, -, hbefore, -⟩ := of_callAt hcall
          simp [hbefore]

end Pattern

/-! ### The function of a call -/

/-- `$(call name,args)` calls `name`. -/
def Call.function (call : Call) : Str :=
  if call.name = "call".toList then call.args.takeWhile isArgChar else call.name

/-- The text its function gets. -/
def Call.argument (call : Call) : Str :=
  if call.name = "call".toList then call.args.dropWhile isArgChar else call.args

/-- What stands for the call in the end: the whole expression, if its function is not
known. -/
def Call.result (env : Env) (makefile expression : Str) (call : Call) : Option Str :=
  match (mkFunctions env makefile).lookup call.function with
  | some f => f call.argument
  | none => some expression

/-- The text with a result in the place of the call. -/
def Call.replaced (call : Call) (v : Str) : Str := call.before ++ v ++ call.after

/-- Its function is one of `MK_FUNCTIONS`. -/
def Call.known (env : Env) (makefile : Str) (call : Call) : Bool :=
  ((mkFunctions env makefile).lookup call.function).isSome

/-- **`expand_fun` over the call it finds.** The two groups of the arguments are put together again
before they are used, so that where the pattern divides them makes no difference. -/
theorem expandFun_eq (env : Env) (makefile x : Str) : expandFun env makefile x =
    match firstCall x with
    | none => some x
    | some call => (call.result env makefile x).map call.replaced := by
  unfold expandFun
  rw [search_eq_firstCall]
  cases hx : firstCall x with
  | none => rfl
  | some call =>
      have hname : Regex.groupD call.groups 1 = call.name := rfl
      have hfront : Regex.groupD call.groups 2 = call.args.takeWhile isArgChar := rfl
      have hrest : Regex.groupD call.groups 3 = call.args.dropWhile isArgChar := rfl
      simp only [Option.map_some, hname, hfront, hrest, List.takeWhile_append_dropWhile]
      rw [Call.result, Call.function, Call.argument]
      by_cases hcall : call.name = "call".toList
      · simp only [if_pos hcall]
        rfl
      · simp only [if_neg hcall]
        rfl

/-! ### The text around a call -/

/-- The text the pattern matches. -/
def Call.text (call : Call) : Str := '$' :: '(' :: (call.name ++ ' ' :: (call.args ++ [')']))

/-- What is meant to stand for the call: a function that is not known leaves it as it is. -/
def Call.meant (env : Env) (makefile : Str) (call : Call) : Option Str :=
  match (mkFunctions env makefile).lookup call.function with
  | some f => f call.argument
  | none => some call.text

theorem text_of_callAt {t : Str} {call : Call} (h : callAt t = some call) :
    t = call.text ++ call.after := by
  obtain ⟨r, after, hopen, -, hreach, -, hafter⟩ := of_callAt h
  have hr : r = call.args ++ ')' :: call.after := by
    rw [hafter, ← List.cons_append, ← List.append_assoc, ← hreach, reach_append_beyond]
  rw [(openingAt_eq_some_iff.mp hopen).1, hr]
  simp [Call.text]

/-- A text is what stands before the call, the call, and what stands behind it; by induction on the
characters the search passes over. -/
theorem text_of_firstCall {x : Str} {call : Call} (h : firstCall x = some call) :
    x = call.before ++ call.text ++ call.after := by
  induction x generalizing call with
  | nil => cases h
  | cons c s ih =>
      rw [firstCall] at h
      cases hhere : callAt (c :: s) with
      | some call' =>
          rw [hhere] at h
          obtain rfl := Option.some.inj h
          obtain ⟨-, -, -, hbefore, -⟩ := of_callAt hhere
          rw [hbefore, List.nil_append, ← text_of_callAt hhere]
      | none =>
          rw [hhere] at h
          obtain ⟨call', hcall', rfl⟩ := Option.map_eq_some_iff.mp h
          exact congrArg (c :: ·) (ih hcall')

section

variable {env : Env} {makefile : Str} {call : Call}

theorem Call.result_eq_meant (h : call.known env makefile = true) (x : Str) :
    call.result env makefile x = call.meant env makefile := by
  unfold Call.known at h
  unfold Call.result Call.meant
  cases hf : (mkFunctions env makefile).lookup call.function with
  | some f => rfl
  | none =>
      rw [hf] at h
      cases h

theorem Call.result_of_unknown (h : call.known env makefile = false) (x : Str) :
    call.result env makefile x = some x ∧ call.meant env makefile = some call.text := by
  unfold Call.known at h
  unfold Call.result Call.meant
  cases hf : (mkFunctions env makefile).lookup call.function with
  | some f =>
      rw [hf] at h
      cases h
  | none => exact ⟨rfl, rfl⟩

theorem Call.replaced_eq_self_iff {x : Str} : call.replaced x = x ↔
    call.before = [] ∧ call.after = [] := by
  constructor
  · intro h
    have hlength := congrArg List.length h
    simp only [Call.replaced, List.length_append] at hlength
    exact ⟨List.length_eq_zero_iff.mp (by omega), List.length_eq_zero_iff.mp (by omega)⟩
  · intro h
    simp [Call.replaced, h.1, h.2]

end

/-- **The text around a call is kept once exactly if the function is known**, or if there is
no such text. For an unknown name the function returns the whole expression, and `expand_fun`
puts this where the call stood, with the text around it once more. -/
theorem expandFun_splice_iff (env : Env) (makefile : Str) {x before after : Str} {g : Groups}
    (h : functionCallRx.search x = some (before, g, after)) :
    ∃ call : Call, call.before = before ∧ call.groups = g ∧ call.after = after ∧
      x = before ++ call.text ++ after ∧
      (expandFun env makefile x = (call.meant env makefile).map (before ++ · ++ after) ↔
        call.known env makefile = true ∨ before = [] ∧ after = []) ∧
      (call.known env makefile = false →
        (expandFun env makefile x = some x ↔ before = [] ∧ after = [])) := by
  rw [search_eq_firstCall] at h
  obtain ⟨call, hcall, hparts⟩ := Option.map_eq_some_iff.mp h
  cases hparts
  have hx := text_of_firstCall hcall
  have hfun : expandFun env makefile x = (call.result env makefile x).map call.replaced := by
    rw [expandFun_eq, hcall]
  refine ⟨call, rfl, rfl, rfl, hx, ?_, ?_⟩
  · cases hknown : call.known env makefile with
    | true =>
        rw [hfun, Call.result_eq_meant hknown]
        exact iff_of_true rfl (.inl rfl)
    | false =>
        obtain ⟨hres, hmeant⟩ := Call.result_of_unknown hknown x
        rw [hfun, hres, hmeant, Option.map_some, Option.map_some, ← hx, Option.some_inj,
          Call.replaced_eq_self_iff]
        simp
  · intro hknown
    rw [hfun, (Call.result_of_unknown hknown x).1, Option.map_some, Option.some_inj,
      Call.replaced_eq_self_iff]

/-- Text before a call of a known function. -/
theorem expandFun_splice_iff_basename :
    ∃ call : Call, call.before = "lisa".toList ∧
      expandFun Env.bare "Android.mk".toList "lisa$(basename /home/a.cpp)".toList =
        (call.meant Env.bare "Android.mk".toList).map ("lisa".toList ++ · ++ []) := by
  have hsearch : functionCallRx.search "lisa$(basename /home/a.cpp)".toList =
      some ("lisa".toList,
        [(3, []), (2, "/home/a.cpp".toList), (1, "basename".toList)], []) := by decide
  obtain ⟨call, hbefore, hgroups, -, -, hiff, -⟩ :=
    expandFun_splice_iff Env.bare "Android.mk".toList hsearch
  refine ⟨call, hbefore, hiff.mpr (.inl ?_)⟩
  have hname : call.name = "basename".toList := congrArg (Regex.groupD · 1) hgroups
  rw [Call.known, Call.function, hname, if_neg (by decide)]
  decide

/-- A function that is not known gives the whole expression: the text before the call comes
twice. -/
theorem unknown_function_doubles :
    expandFun Env.bare "Android.mk".toList "lisa$(foo bar)".toList =
      some "lisalisa$(foo bar)".toList := by
  decide

end BlogStuff.Adepends
