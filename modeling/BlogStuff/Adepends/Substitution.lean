import BlogStuff.Adepends.Closing
import BlogStuff.Adepends.GnuMake

/-!
# BlogStuff.Adepends.Substitution

Variables whose values hold no `$`, and texts in which every `$` begins a reference. The loop
of `expand_var` searches its text from the start after each replacement; here that makes no
difference. The text in front of the first reference has no `$`, so what is put in its place
cannot complete a reference, and the references behind it do not look back. The loop returns
the text with all references replaced at once (`expandVar_eq_substRefs`).

Dependency words of this kind become words without a `$`, which the closing loop of
`parse_makefile` evaluates a second time without effect. It leaves the words of all values,
each once, although not in their order (`closeList_spliced`).
-/

namespace BlogStuff.Adepends

open BlogStuff.Python

/-- Every `$` begins a reference. -/
def RefsOnly (e : Str) : Prop := ∀ a b, e = a ++ '$' :: b → refAt ('$' :: b) ≠ none

theorem refsOnly_iff {e : Str} :
    RefsOnly e ↔ ∀ t ∈ e.tails, t.head? = some '$' → refAt t ≠ none := by
  constructor
  · intro h t ht hhead
    obtain ⟨a, rfl⟩ := (List.mem_tails _ _).mp ht
    obtain ⟨b, rfl⟩ := List.head?_eq_some_iff.mp hhead
    exact h a b rfl
  · intro h a b hab
    exact h ('$' :: b) ((List.mem_tails _ _).mpr ⟨a, hab.symm⟩) rfl

theorem refsOnly_of_not_mem {e : Str} (h : '$' ∉ e) : RefsOnly e := by
  rintro a b rfl
  simp at h

instance (e : Str) : Decidable (RefsOnly e) := decidable_of_iff _ refsOnly_iff.symm

/-- The names of the references in a text. -/
def refNames (e : Str) : List Str := e.tails.filterMap fun t => (refAt t).map Prod.fst

theorem mem_refNames {e x : Str} :
    x ∈ refNames e ↔ ∃ a t r, e = a ++ t ∧ refAt t = some (x, r) := by
  simp only [refNames, List.mem_filterMap, List.mem_tails, Option.map_eq_some_iff]
  constructor
  · intro h
    obtain ⟨t, ⟨a, ha⟩, ⟨y, r⟩, ht, rfl⟩ := h
    exact ⟨a, t, r, ha.symm, ht⟩
  · intro h
    obtain ⟨a, t, r, ha, ht⟩ := h
    exact ⟨t, ⟨a, ha.symm⟩, (x, r), ht, rfl⟩

theorem refNames_subset_append (a e : Str) : refNames e ⊆ refNames (a ++ e) := by
  intro x hx
  obtain ⟨b, t, r, rfl, ht⟩ := mem_refNames.mp hx
  exact mem_refNames.mpr ⟨a ++ b, t, r, by simp, ht⟩

theorem refNames_of_not_mem {e : Str} (h : '$' ∉ e) : refNames e = [] := by
  refine List.eq_nil_iff_forall_not_mem.mpr fun x hx => ?_
  obtain ⟨a, t, r, rfl, ht⟩ := mem_refNames.mp hx
  obtain ⟨p, rfl, -⟩ := refAt_parts ht
  simp at h

/-- All references replaced at once, from left to right, and everything else as it is;
`skip` counts the characters left of the reference just replaced. -/
def substRefs (vars : Str → Option Str) : Nat → Str → Str
  | _, [] => []
  | skip + 1, _ :: s => substRefs vars skip s
  | 0, c :: s =>
      match refAt (c :: s) with
      | some (name, after) => (vars name).getD [] ++ substRefs vars (s.length - after.length) s
      | none => c :: substRefs vars 0 s

section

variable {vars : Str → Option Str}

theorem substRefs_skip (a s : Str) : substRefs vars a.length (a ++ s) = substRefs vars 0 s := by
  induction a with
  | nil => rfl
  | cons c a ih => rw [List.length_cons, List.cons_append, substRefs, ih]

theorem substRefs_ref {t n r : Str} (h : refAt t = some (n, r)) :
    substRefs vars 0 t = (vars n).getD [] ++ substRefs vars 0 r := by
  obtain ⟨p, rfl, -⟩ := refAt_parts h
  rw [substRefs, h]
  simp only [List.length_append, Nat.add_sub_cancel, substRefs_skip]

theorem substRefs_append {a : Str} (ha : '$' ∉ a) (s : Str) :
    substRefs vars 0 (a ++ s) = a ++ substRefs vars 0 s := by
  induction a with
  | nil => rfl
  | cons c a ih =>
      obtain ⟨hc, ha⟩ := List.ne_and_not_mem_of_not_mem_cons ha
      rw [List.cons_append, substRefs, refAt_eq_none (Ne.symm hc), ih ha, List.cons_append]

theorem substRefs_of_not_mem {a : Str} (ha : '$' ∉ a) : substRefs vars 0 a = a := by
  have happend : substRefs vars 0 (a ++ []) = a ++ substRefs vars 0 [] := substRefs_append ha []
  simpa [substRefs] using happend

/-- A text of this kind has no `$`, or a first one, with a reference to replace. -/
theorem RefsOnly.cases {e : Str} (h : RefsOnly e) : '$' ∉ e ∨
    ∃ a p n r, e = a ++ '$' :: (p ++ r) ∧ '$' ∉ a ∧ '$' ∉ p ∧
      refAt ('$' :: (p ++ r)) = some (n, r) ∧ RefsOnly r ∧ r.count '$' < e.count '$' := by
  by_cases hmem : '$' ∈ e
  · obtain ⟨a, b, rfl, ha⟩ := List.eq_append_cons_of_mem hmem
    obtain ⟨⟨n, r⟩, href⟩ := Option.ne_none_iff_exists'.mp (h a b rfl)
    obtain ⟨p, hp, hno, -⟩ := refAt_parts href
    obtain rfl := (List.cons.inj hp).2
    refine .inr ⟨a, p, n, r, rfl, ha, hno, href, fun c d hcd => ?_, ?_⟩
    · exact h (a ++ '$' :: (p ++ c)) d (by simp [hcd])
    · simp only [List.count_append, List.count_cons_self]
      omega
  · exact .inl hmem

/-- The variables a text refers to hold no `$`. -/
def Clean (vars : Str → Option Str) (e : Str) : Prop :=
  ∀ x ∈ refNames e, ∀ v, vars x = some v → '$' ∉ v

theorem clean_of_forall (hvars : ∀ n v, vars n = some v → '$' ∉ v) (e : Str) : Clean vars e :=
  fun x _ => hvars x

theorem Clean.suffix {a e : Str} (h : Clean vars (a ++ e)) : Clean vars e :=
  fun x hx => h x (refNames_subset_append a e hx)

theorem Clean.not_mem {t n r : Str} (h : Clean vars t) (href : refAt t = some (n, r)) :
    '$' ∉ (vars n).getD [] := by
  cases hv : vars n with
  | none => simp
  | some v => exact h n (mem_refNames.mpr ⟨[], t, r, rfl, href⟩) v hv

/-- **Replacing one reference after another replaces them all at once.** Each turn of the loop
takes the first reference, with text without a `$` before it, and adds no `$`. -/
theorem expandVar_done_append {fuel : Nat} {d e : Str} (hd : '$' ∉ d) (he : RefsOnly e)
    (hclean : Clean vars e) (hfuel : e.count '$' < fuel) :
    expandVar vars fuel (d ++ e) = some (d ++ substRefs vars 0 e) := by
  induction fuel generalizing d e with
  | zero => cases hfuel
  | succ fuel ih =>
      rcases he.cases with hno | ⟨a, p, n, r, rfl, ha, -, href, hr, hcount⟩
      · rw [expandVar, searchRef_of_not_mem (by simp [hd, hno]), substRefs_of_not_mem hno]
      · have hvalue := hclean.suffix.not_mem href
        have hdone : '$' ∉ d ++ a ++ (vars n).getD [] := by simp [hd, ha, hvalue]
        have hrest : Clean vars r :=
          Clean.suffix (a := a ++ '$' :: p) (by simpa using hclean)
        rw [← List.append_assoc, expandVar_ref (by simp [hd, ha]) href, ← List.append_assoc,
          ih hdone hr hrest (by omega), substRefs_append ha, substRefs_ref href]
        simp

end

/-- **`expand_var` is one substitution** for variables whose values hold no `$` and texts in
which every `$` begins a reference. The loop takes the references from the left; what it has
put in holds no `$`, so it never looks at it again. -/
theorem expandVar_eq_substRefs {vars : Str → Option Str} {e : Str}
    (hvars : ∀ n v, vars n = some v → '$' ∉ v) (he : RefsOnly e) :
    ∃ k, ∀ fuel, k ≤ fuel → expandVar vars fuel e = some (substRefs vars 0 e) := by
  refine ⟨e.count '$' + 1, fun fuel hfuel => ?_⟩
  exact expandVar_done_append (d := []) (by simp) he (clean_of_forall hvars e) hfuel

/-! ### Which names count, and where the blanks are -/

section

variable {vars : Str → Option Str}

theorem refNames_cons (c : Char) (s : Str) :
    refNames (c :: s) = ((refAt (c :: s)).map Prod.fst).toList ++ refNames s := by
  rw [refNames, List.tails_cons, List.filterMap_cons]
  cases (refAt (c :: s)).map Prod.fst with
  | none => rfl
  | some n => rfl

theorem refNames_append {a : Str} (ha : '$' ∉ a) (s : Str) : refNames (a ++ s) = refNames s := by
  induction a with
  | nil => rfl
  | cons c a ih =>
      obtain ⟨hc, ha⟩ := List.ne_and_not_mem_of_not_mem_cons ha
      rw [List.cons_append, refNames_cons, refAt_eq_none (Ne.symm hc), ih ha]
      rfl

/-- The variables a text does not refer to make no difference. By induction on the text, whose tails
refer to no other variables than it does. -/
theorem substRefs_congr {vars' : Str → Option Str} {e : Str}
    (h : ∀ x ∈ refNames e, vars x = vars' x) (skip : Nat) :
    substRefs vars skip e = substRefs vars' skip e := by
  induction e generalizing skip with
  | nil => rfl
  | cons c s ih =>
      have hs : ∀ x ∈ refNames s, vars x = vars' x := fun x hx =>
        h x (refNames_subset_append [c] s hx)
      cases skip with
      | succ skip => rw [substRefs, substRefs, ih hs]
      | zero =>
          rw [substRefs, substRefs]
          cases hc : refAt (c :: s) with
          | none => exact congrArg (c :: ·) (ih hs 0)
          | some p =>
              have hname : vars p.1 = vars' p.1 := h p.1 (by simp [refNames_cons, hc])
              simp only [hname, ih hs]

/-- The value of a variable the text refers to is part of the result. -/
theorem mem_substRefs {e x : Str} (he : RefsOnly e) (hx : x ∈ refNames e) {c : Char}
    (hc : c ∈ (vars x).getD []) : c ∈ substRefs vars 0 e := by
  induction hn : e.count '$' using Nat.strong_induction_on generalizing e with
  | _ n ih =>
      subst hn
      rcases he.cases with hno | ⟨a, p, m, r, rfl, ha, hp, href, hr, hcount⟩
      · rw [refNames_of_not_mem hno] at hx
        cases hx
      · rw [substRefs_append ha, substRefs_ref href, List.mem_append, List.mem_append]
        rw [refNames_append ha, refNames_cons, href, refNames_append hp] at hx
        rcases List.mem_cons.mp hx with rfl | hx
        · exact .inr (.inl hc)
        · exact .inr (.inr (ih _ hcount hr hx rfl))

/-- A blank ends every reference before it. By induction on the text, with the characters that are
left of a reference to skip. -/
theorem substRefs_append_blank {b : Char} (hb : isBlank b = true) {skip : Nat} {a : Str}
    (hskip : skip ≤ a.length) (z : Str) :
    substRefs vars skip (a ++ b :: z) = substRefs vars skip a ++ b :: substRefs vars 0 z := by
  induction a generalizing skip with
  | nil =>
      obtain rfl : skip = 0 := by simpa using hskip
      have hne : b ≠ '$' := by
        rintro rfl
        exact absurd hb (by decide)
      have hhere : substRefs vars 0 (b :: z) = b :: substRefs vars 0 z := by
        rw [substRefs, refAt_eq_none hne]
      exact hhere
  | cons c a ih =>
      rw [List.cons_append]
      cases skip with
      | succ skip =>
          rw [substRefs, substRefs]
          exact ih (by simpa using hskip)
      | zero =>
          rw [substRefs, substRefs, ← List.cons_append]
          cases hc : refAt (c :: a) with
          | none =>
              rw [refAt_append_blank hc hb]
              simp only [ih (Nat.zero_le _), List.cons_append]
          | some q =>
              obtain ⟨n, after⟩ := q
              have hlong : refAt (c :: a ++ b :: z) = some (n, after ++ b :: z) := by
                refine refAt_append hc fun _ _ _ d hd => isWord_of_isBlank ?_
                obtain rfl := Option.some.inj hd
                exact hb
              have hlen : (a ++ b :: z).length - (after ++ b :: z).length =
                  a.length - after.length := by
                simp only [List.length_append, List.length_cons]
                omega
              rw [hlong]
              simp only [hlen, ih (Nat.sub_le _ _), List.append_assoc]

/-- **Splitting a text into words and replacing its references may be done in either order.**
A reference holds no blank, so it lies within one word; the blanks of its value split that
word, before or after. -/
theorem words_substRefs (t : Str) :
    words (substRefs vars 0 t) = (words t).flatMap fun w => words (substRefs vars 0 w) := by
  have hone : ∀ a : Str, (∀ c ∈ a, isBlank c = false) →
      words (substRefs vars 0 a) = (words a).flatMap fun w => words (substRefs vars 0 w) := by
    intro a ha
    cases a with
    | nil => rfl
    | cons c a => rw [words_of_forall (List.cons_ne_nil c a) ha, List.flatMap_singleton]
  induction t using blank_induction with
  | word a ha => exact hone a ha
  | cut a b z ha hb ih =>
      rw [substRefs_append_blank hb (Nat.zero_le _), words_append_cons hb, words_append_cons hb,
        List.flatMap_append, hone a ha, ih]

/-- What follows a word does not begin with a letter that would go on with a reference. -/
theorem RefsOnly.of_mem_words {t w : Str} (h : RefsOnly t) (hw : w ∈ words t) : RefsOnly w := by
  obtain ⟨-, -, x, y, rfl, hy⟩ := Python.of_mem_words hw
  rintro a b rfl
  have href := h (x ++ a) (b ++ y) (by simp)
  cases y with
  | nil => simpa using href
  | cons d y =>
      intro hnone
      exact href (refAt_append_blank hnone (hy d rfl) y)

theorem refNames_of_mem_words {t w x : Str} (hw : w ∈ words t) (hx : x ∈ refNames w) :
    x ∈ refNames t := by
  obtain ⟨-, -, p, y, rfl, hy⟩ := Python.of_mem_words hw
  obtain ⟨a, u, r, rfl, hu⟩ := mem_refNames.mp hx
  have hlong := refAt_append hu fun _ _ _ d hd => isWord_of_isBlank (hy d hd)
  exact mem_refNames.mpr ⟨p ++ a, u ++ y, r ++ y, by simp, hlong⟩

end

/-- `A` has two words, and nothing else is set. -/
def twoWords : Str → Option Str := fun n => if n == ['A'] then some "p q".toList else none

theorem not_mem_twoWords (n v : Str) (h : twoWords n = some v) : '$' ∉ v := by
  obtain ⟨-, hv⟩ := Option.ite_none_right_eq_some.mp h
  rw [← Option.some.inj hv]
  decide

/-- Three forms of a reference, one of them to a variable that is not set. -/
theorem expandVar_eq_substRefs_forms :
    ∃ k, ∀ fuel, k ≤ fuel →
      expandVar twoWords fuel "$(A)-${B}$A.".toList = some "p q-p q.".toList :=
  expandVar_eq_substRefs not_mem_twoWords (by decide)

/-! ### Dependency words -/

section

variable {env : Env} {pool : VariablePool} {fuel : Nat}

theorem not_mem_substRefs {vars : Str → Option Str} {e : Str} (he : RefsOnly e)
    (hclean : Clean vars e) : '$' ∉ substRefs vars 0 e := by
  induction hn : e.count '$' using Nat.strong_induction_on generalizing e with
  | _ n ih =>
      subst hn
      rcases he.cases with hno | ⟨a, p, m, r, rfl, ha, -, href, hr, hcount⟩
      · rwa [substRefs_of_not_mem hno]
      · have hrest := ih _ hcount hr (Clean.suffix (a := a ++ '$' :: p) (by simpa using hclean)) rfl
        rw [substRefs_append ha, substRefs_ref href]
        simp [ha, hrest, hclean.suffix.not_mem href]

theorem evalExpression_of_refsOnly {w : Str} (hw : RefsOnly w) (hclean : Clean pool.vars w)
    (hfuel : w.count '$' < fuel) :
    evalExpression env fuel pool w = some (substRefs pool.vars 0 w) := by
  have hloop := expandVar_done_append (d := []) (by simp) hw hclean hfuel
  rw [List.nil_append, List.nil_append] at hloop
  have hsearch := search_functionCallRx (.inl (not_mem_substRefs hw hclean))
  rw [evalExpression, hloop, Option.bind_some, expandFun_of_search hsearch]

/-- Whatever the fuel, if the evaluation returns. -/
theorem eq_substRefs_of_eval {w v : Str} (hw : RefsOnly w) (hclean : Clean pool.vars w)
    (h : evalExpression env fuel pool w = some v) : v = substRefs pool.vars 0 w := by
  have hmore := evalExpression_mono h (Nat.le_add_right fuel (w.count '$' + 1))
  rw [evalExpression_of_refsOnly hw hclean (by omega)] at hmore
  exact (Option.some.inj hmore).symm

/-- What a list of such words ends up as, in the order of the words. A value has no `$` in it any
more, so its other words, which go to the end of the list, come out as they are. -/
theorem Settles.eq_flatMap {ws us : List Str} (h : Settles env fuel pool ws us)
    (hws : ∀ w ∈ ws, RefsOnly w ∧ Clean pool.vars w) :
    us = ws.flatMap fun w => words (substRefs pool.vars 0 w) := by
  induction h with
  | nil => rfl
  | drop hv hw _ ih =>
      obtain ⟨⟨hrefs, hclean⟩, hws⟩ := List.forall_mem_cons.mp hws
      rw [eq_substRefs_of_eval hrefs hclean hv] at hw
      rw [List.flatMap_cons, hw, ← ih hws, List.nil_append]
  | @keep w v u vs xs ws us hv hw _ _ ihvs ih =>
      obtain ⟨⟨hrefs, hclean⟩, hws⟩ := List.forall_mem_cons.mp hws
      rw [eq_substRefs_of_eval hrefs hclean hv] at hw
      -- the other words of the value hold no `$`, so nothing happens to them
      have hfree : ∀ t ∈ vs, '$' ∉ t := by
        intro t ht hmem
        obtain ⟨-, -, a, b, hab, -⟩ := of_mem_words (hw ▸ .tail u ht :
          t ∈ words (substRefs pool.vars 0 w))
        refine not_mem_substRefs hrefs hclean ?_
        rw [hab]
        simp [hmem]
      have hvs : (vs.flatMap fun t => words (substRefs pool.vars 0 t)) = vs := by
        calc (vs.flatMap fun t => words (substRefs pool.vars 0 t))
            = vs.flatMap fun t => [t] := List.flatMap_congr fun t ht => by
              obtain ⟨hne, hblank, -⟩ := of_mem_words (hw ▸ .tail u ht :
                t ∈ words (substRefs pool.vars 0 w))
              rw [substRefs_of_not_mem (hfree t ht), words_of_forall hne hblank]
          _ = vs := by simp
      have hxs := ihvs fun t ht => ⟨refsOnly_of_not_mem (hfree t ht),
        fun x hx => by rw [refNames_of_not_mem (hfree t ht)] at hx; cases hx⟩
      rw [List.flatMap_cons, hw, hxs, hvs, ih hws, List.cons_append]

theorem settled_of_mem_substRefs {w u : Str} (hw : RefsOnly w) (hclean : Clean pool.vars w)
    (hu : u ∈ words (substRefs pool.vars 0 w)) : Settled u :=
  settled_of_mem_words hu (searchRef_of_not_mem (not_mem_substRefs hw hclean))

/-- The turns of the loop a word takes: one for each word of its value, and one if there is
none. -/
def turns (values : List (List Str)) : Nat := (values.map fun vs => max 1 vs.length).sum

/-- **The closing loop over words whose values are settled.** The queue is made of these words
and, behind them, of words that are settled already; of each value the first word stays in its
place and the others go to the end. -/
theorem closeList_values {value : Str → Str} {n : Nat} {done ws ts : List Str}
    (heval : ∀ w ∈ ws, evalExpression env (fuel + 1) pool w = some (value w))
    (hsettled : ∀ w ∈ ws, ∀ u ∈ words (value w), Settled u) (hts : ∀ t ∈ ts, Settled t)
    (hn : turns (ws.map fun w => words (value w)) + ts.length < n) :
    ∃ l, closeList env (fuel + 1) pool n done (ws ++ ts) = some l ∧
      l.Perm (done ++ (ws.flatMap fun w => words (value w)) ++ ts) := by
  induction ws generalizing n done ts with
  | nil => exact ⟨done ++ ts, closeList_settled hts (by simpa [turns] using hn), by simp⟩
  | cons w ws ih =>
      obtain ⟨hw, hws⟩ := List.forall_mem_cons.mp heval
      obtain ⟨hsw, hsws⟩ := List.forall_mem_cons.mp hsettled
      obtain ⟨m, rfl⟩ : ∃ m, n = m + 1 := ⟨n - 1, by omega⟩
      rw [turns, List.map_cons, List.map_cons, List.sum_cons, ← turns] at hn
      rw [List.cons_append, closeList, hw, Option.bind_some, List.flatMap_cons]
      cases hv : words (value w) with
      | nil =>
          rw [hv] at hn
          exact ih hws hsws hts (by simp only [List.length_nil] at hn; omega)
      | cons u vs =>
          rw [hv] at hn hsw
          have hvs : ∀ t ∈ ts ++ vs, Settled t :=
            List.forall_mem_append.mpr ⟨hts, fun t ht => hsw t (.tail _ ht)⟩
          have hturns : turns (ws.map fun w => words (value w)) + (ts ++ vs).length < m := by
            simp only [List.length_cons, List.length_append] at hn ⊢
            omega
          obtain ⟨l, hl, hperm⟩ := ih hws hsws hvs hturns
          refine ⟨l, by simpa using hl, hperm.trans ?_⟩
          simp only [List.append_assoc, List.cons_append, List.nil_append]
          refine (List.Perm.cons u ?_).append_left done
          rw [← List.append_assoc]
          exact List.perm_append_comm

end

/-- **The closing loop ends and keeps every word of every value once.** A word that evaluates
to itself goes to the end of the list; any other is replaced by the words of its value, and
these hold no `$`, so they are settled when their turn comes. -/
theorem closeList_spliced (env : Env) (pool : VariablePool) (ws : List Str)
    (hvars : ∀ n v, pool.vars n = some v → '$' ∉ v) (hws : ∀ w ∈ ws, RefsOnly w) :
    ∃ k, ∀ fuel n, k ≤ fuel → k ≤ n → (∀ w ∈ ws, (evalExpression env fuel pool w).isSome) ∧
      ∃ l, closeList env fuel pool n [] ws = some l ∧
        l.Perm (ws.flatMap fun w => words ((evalExpression env fuel pool w).getD [])) := by
  let value := substRefs pool.vars 0
  -- enough for each word, and for the turns of the loop
  let k := (ws.map fun w => w.count '$').sum + turns (ws.map fun w => words (value w)) + 1
  refine ⟨k, fun fuel n hfuel hn => ?_⟩
  have heval : ∀ w ∈ ws, evalExpression env fuel pool w = some (value w) := by
    intro w hw
    refine evalExpression_of_refsOnly (hws w hw) (clean_of_forall hvars w) ?_
    have hle : w.count '$' ≤ (ws.map fun w => w.count '$').sum :=
      List.single_le_sum (fun _ _ => Nat.zero_le _) _ (List.mem_map_of_mem hw)
    omega
  have hsettled : ∀ w ∈ ws, ∀ u ∈ words (value w), Settled u := fun w hw _ hu =>
    settled_of_mem_substRefs (hws w hw) (clean_of_forall hvars w) hu
  have hflat : (ws.flatMap fun w => words ((evalExpression env fuel pool w).getD [])) =
      ws.flatMap fun w => words (value w) :=
    List.flatMap_congr fun w hw => by rw [heval w hw, Option.getD_some]
  obtain ⟨m, rfl⟩ : ∃ m, fuel = m + 1 := ⟨fuel - 1, by omega⟩
  have hloop : ∃ l, closeList env (m + 1) pool n [] (ws ++ []) = some l ∧
      l.Perm ([] ++ (ws.flatMap fun w => words (value w)) ++ []) :=
    closeList_values heval hsettled (by simp) (by simp only [List.length_nil]; omega)
  rw [List.append_nil, List.append_nil, List.nil_append] at hloop
  exact ⟨fun w hw => by rw [heval w hw]; rfl, hflat ▸ hloop⟩

theorem closeList_spliced_three_words :
    ∃ k, ∀ fuel n, k ≤ fuel → k ≤ n →
      (∀ w ∈ ["$(A)".toList, "$(B)".toList, "c".toList],
        (evalExpression Env.bare fuel ⟨[], twoWords⟩ w).isSome) ∧
      ∃ l, closeList Env.bare fuel ⟨[], twoWords⟩ n []
          ["$(A)".toList, "$(B)".toList, "c".toList] = some l ∧
        l.Perm (["$(A)".toList, "$(B)".toList, "c".toList].flatMap fun w =>
          words ((evalExpression Env.bare fuel ⟨[], twoWords⟩ w).getD [])) :=
  closeList_spliced Env.bare ⟨[], twoWords⟩ _ not_mem_twoWords (by decide)

-- the second word of `A` comes last
example : closeList Env.bare 2 ⟨[], twoWords⟩ 5 []
    ["$(A)".toList, "$(B)".toList, "c".toList] = some ["p".toList, "c".toList, "q".toList] := by
  decide

end BlogStuff.Adepends
