import BlogStuff.Adepends.Variables

/-!
# BlogStuff.Adepends.GnuMake

The variables of a `VariablePool` against those of GNU make. The pool keeps the texts of
make's variables and forgets their flavours (`Agrees`), and `expand_var` pastes texts
where make computes values. That is no different as long as every `$` begins a reference
both of them read (`Plain`), and no pasted text ends in a single-letter reference that
the text behind it could make into a word (`Closed`).

What the pool does not follow are two of the operators: `?=` is ignored, and `+=` expands
the new text at once although the variable may be deferred. `Safe` is the condition on
one assignment under which the two stay in step (`step_forward`, `step_backward`); over
a whole makefile they then give every variable the same value, or none
(`evalExpression_eq_gnu`).
-/

namespace BlogStuff.Adepends

open BlogStuff.Python BlogStuff.Make

variable {env : Env} {g : State} {vars : Str → Option Str}

/-! ### Texts both sides read alike -/

/-- Every `$` begins a reference, the same for make and for the pool. -/
inductive Plain : Str → Prop
  | nil : Plain []
  | char {c : Char} {s : Str} (hc : c ≠ '$') (h : Plain s) : Plain (c :: s)
  | ref {t n s : Str} (hg : Ref t n s) (hp : refAt t = some (n, s)) (h : Plain s) : Plain t

/-- The text does not end in a single-letter reference. -/
def Closed (t : Str) : Prop := ∀ a c, c.isAlpha = true → t ≠ a ++ ['$', c]

theorem Closed.suffix {a t : Str} (h : Closed (a ++ t)) : Closed t := by
  intro b c hc e
  exact h (a ++ b) c hc (by rw [e, List.append_assoc])

theorem closed_of_not_mem {t : Str} (h : '$' ∉ t) : Closed t := by
  rintro a c - rfl
  simp at h

theorem plain_of_not_mem {t : Str} (h : '$' ∉ t) : Plain t := by
  induction t with
  | nil => exact .nil
  | cons c t ih =>
      obtain ⟨hc, ht⟩ := List.ne_and_not_mem_of_not_mem_cons h
      exact .char (Ne.symm hc) (ih ht)

theorem Closed.refAt_append {t n s b : Str} (ht : Closed t ∨ b = []) (hp : refAt t = some (n, s)) :
    refAt (t ++ b) = some (n, s ++ b) := by
  refine Adepends.refAt_append hp fun c hc htc d hd => ?_
  rcases ht with ht | rfl
  · exact absurd htc (ht [] c hc)
  · cases hd

theorem Plain.append {a b : Str} (ha : Plain a) (hc : Closed a) (hb : Plain b) :
    Plain (a ++ b) := by
  induction ha with
  | nil => exact hb
  | @char c s hne _ ih => exact .char hne (ih (Closed.suffix (a := [c]) hc))
  | @ref t n s hg hp _ ih =>
      obtain ⟨p, rfl⟩ := hg.suffix
      exact .ref (hg.append b) (Closed.refAt_append (.inl hc) hp) (ih hc.suffix)

theorem Plain.of_cons {c : Char} {s : Str} (h : Plain (c :: s)) (hc : c ≠ '$') : Plain s := by
  cases h with
  | char _ h => exact h
  | ref hg => exact absurd hg (not_ref_cons hc)

theorem Plain.of_ref {t n s : Str} (h : Plain t) (hr : Ref t n s) :
    refAt t = some (n, s) ∧ Plain s := by
  cases h with
  | nil =>
      obtain ⟨r, hr⟩ := hr.head
      cases hr
  | char hc => exact absurd hr (not_ref_cons hc)
  | ref hg hp h =>
      obtain ⟨rfl, rfl⟩ := hg.unique hr
      exact ⟨hp, h⟩

theorem Plain.text {t : Str} (h : Plain t) : Text t := by
  induction h with
  | nil => exact .nil
  | char hc _ ih => exact .char hc ih
  | ref hg _ _ ih => exact .ref hg ih

/-! ### The pool and make's variables -/

/-- The pool holds the texts of make's variables; a deferred text can be pasted, and an
immediate one has nothing left to expand. -/
structure Agrees (g : State) (vars : Str → Option Str) : Prop where
  text : ∀ n, vars n = (g n).map Var.text
  plain : ∀ n b, g n = some ⟨.deferred, b⟩ → Plain b ∧ Closed b
  done : ∀ n u, g n = some ⟨.immediate, u⟩ → '$' ∉ u

theorem Agrees.not_mem_of_expands (ha : Agrees g vars) {t v : Str} (h : Expands g t v)
    (ht : Plain t) : '$' ∉ v := by
  induction h with
  | nil => simp
  | char hc _ ih => simpa [Ne.symm hc] using ih (ht.of_cons hc)
  | undefined hr _ _ ih => exact ih (ht.of_ref hr).2
  | @immediate t n s u v hr hn _ ih => simpa [ha.done n u hn] using ih (ht.of_ref hr).2
  | @deferred t n s b u v hr hn _ _ ihb ih =>
      simpa [ihb (ha.plain n b hn).1] using ih (ht.of_ref hr).2

/-- `expand_var` gets from one expression to another. -/
def Reaches (vars : Str → Option Str) (e e' : Str) : Prop :=
  ∃ k, ∀ fuel, expandVar vars (fuel + k) e = expandVar vars fuel e'

theorem Reaches.refl (e : Str) : Reaches vars e e := ⟨0, fun _ => rfl⟩

theorem Reaches.trans {e e' e'' : Str} (h : Reaches vars e e') (h' : Reaches vars e' e'') :
    Reaches vars e e'' := by
  obtain ⟨k, hk⟩ := h
  obtain ⟨k', hk'⟩ := h'
  refine ⟨k' + k, fun fuel => ?_⟩
  rw [← Nat.add_assoc, hk, hk']

/-- One turn of the loop, at a reference behind text that is done. -/
theorem expandVar_ref {done t n s : Str} (hd : '$' ∉ done) (hp : refAt t = some (n, s))
    (fuel : Nat) : expandVar vars (fuel + 1) (done ++ t) =
      expandVar vars fuel (done ++ ((vars n).getD [] ++ s)) := by
  have hsearch : searchRef t = some ([], n, s) := by
    cases t with
    | nil => cases hp
    | cons c t => rw [searchRef, hp]
  rw [expandVar, searchRef_append hd, hsearch]
  simp

theorem Reaches.ref {done t n s : Str} (hd : '$' ∉ done) (hp : refAt t = some (n, s)) :
    Reaches vars (done ++ t) (done ++ ((vars n).getD [] ++ s)) :=
  ⟨1, expandVar_ref hd hp⟩

theorem Closed.of_ref {t n r s : Str} (hr : Ref t n r) (h : Closed t ∨ s = []) :
    Closed r ∨ s = [] := by
  obtain ⟨p, rfl⟩ := hr.suffix
  exact h.imp_left Closed.suffix

/-- The loop expands a text in its place: what is done stands before it, and the rest of
the expression is not touched. -/
theorem Agrees.reaches (ha : Agrees g vars) {t v : Str} (h : Expands g t v) (ht : Plain t)
    {d s : Str} (hd : '$' ∉ d) (hs : Closed t ∨ s = []) :
    Reaches vars (d ++ (t ++ s)) (d ++ (v ++ s)) := by
  induction h generalizing d s with
  | nil => exact .refl _
  | @char c t v hc _ ih =>
      have hd' : '$' ∉ d ++ [c] := by simp [hd, Ne.symm hc]
      simpa using ih (ht.of_cons hc) hd' (hs.imp_left (Closed.suffix (a := [c])))
  | @undefined t n r v hr hn _ ih =>
      obtain ⟨hp, hrest⟩ := ht.of_ref hr
      have hstep : Reaches vars _ _ := Reaches.ref hd (Closed.refAt_append hs hp)
      rw [ha.text, hn] at hstep
      exact hstep.trans (ih hrest hd (Closed.of_ref hr hs))
  | @immediate t n r u v hr hn _ ih =>
      obtain ⟨hp, hrest⟩ := ht.of_ref hr
      have hstep : Reaches vars _ _ := Reaches.ref hd (Closed.refAt_append hs hp)
      rw [ha.text, hn] at hstep
      have hd' : '$' ∉ d ++ u := by simp [hd, ha.done n u hn]
      have hnext := ih hrest hd' (Closed.of_ref hr hs)
      exact hstep.trans (by simpa using hnext)
  | @deferred t n r b u v hr hn hb _ ihb ih =>
      obtain ⟨hp, hrest⟩ := ht.of_ref hr
      obtain ⟨hbplain, hbclosed⟩ := ha.plain n b hn
      have hstep : Reaches vars _ _ := Reaches.ref hd (Closed.refAt_append hs hp)
      rw [ha.text, hn] at hstep
      -- first the pasted text, with the rest of this one behind it
      have hbody := ihb hbplain (s := r ++ s) hd (.inl hbclosed)
      have hd' : '$' ∉ d ++ u := by simp [hd, ha.not_mem_of_expands hb hbplain]
      have hnext := ih hrest hd' (Closed.of_ref hr hs)
      exact hstep.trans (hbody.trans (by simpa using hnext))

/-- What make gives for the front of a text and for the rest. The front is plain: no reference
begins in it and ends behind it. -/
theorem expands_append {a b v : Str} (ha : Plain a) (h : Expands g (a ++ b) v) :
    ∃ u w, Expands g a u ∧ Expands g b w ∧ v = u ++ w := by
  induction ha generalizing v with
  | nil => exact ⟨[], v, .nil, h, rfl⟩
  | @char c s hc _ ih =>
      rw [List.cons_append] at h
      cases h with
      | char _ h =>
          obtain ⟨u, w, hu, hw, rfl⟩ := ih h
          exact ⟨c :: u, w, .char hc hu, hw, rfl⟩
      | undefined hr => exact absurd hr (not_ref_cons hc)
      | immediate hr => exact absurd hr (not_ref_cons hc)
      | deferred hr => exact absurd hr (not_ref_cons hc)
  | @ref t n s hg _ _ ih =>
      have hgb := hg.append b
      generalize ht : t ++ b = t' at h hgb
      cases h with
      | nil =>
          obtain ⟨r, hr⟩ := hgb.head
          cases hr
      | char hc => exact absurd hgb (not_ref_cons hc)
      | undefined hr hn h =>
          obtain ⟨rfl, rfl⟩ := hgb.unique hr
          obtain ⟨u, w, hu, hw, rfl⟩ := ih h
          exact ⟨u, w, .undefined hg hn hu, hw, rfl⟩
      | immediate hr hn h =>
          obtain ⟨rfl, rfl⟩ := hgb.unique hr
          obtain ⟨u, w, hu, hw, rfl⟩ := ih h
          exact ⟨_, w, .immediate hg hn hu, hw, by rw [List.append_assoc]⟩
      | deferred hr hn hb h =>
          obtain ⟨rfl, rfl⟩ := hgb.unique hr
          obtain ⟨u, w, hu, hw, rfl⟩ := ih h
          exact ⟨_, w, .deferred hg hn hb hu, hw, by rw [List.append_assoc]⟩

/-- What the loop returns is what make gives. The loop rewrites the first reference of the whole
text and starts again, so the induction is on the fuel, with the text that is done in front. -/
theorem Agrees.expands (ha : Agrees g vars) {fuel : Nat} {t w : Str} (ht : Plain t) {d : Str}
    (hd : '$' ∉ d) (h : expandVar vars fuel (d ++ t) = some w) :
    ∃ v, Expands g t v ∧ w = d ++ v := by
  -- a turn costs fuel, and between two turns the text that is done grows
  induction fuel generalizing t w d with
  | zero => cases h
  | succ fuel ih =>
      induction ht generalizing d with
      | nil =>
          rw [expandVar, searchRef_of_not_mem (by simpa using hd)] at h
          exact ⟨[], .nil, (Option.some.inj h).symm⟩
      | @char c s hc _ ihs =>
          have hd' : '$' ∉ d ++ [c] := by simp [hd, Ne.symm hc]
          obtain ⟨v, hv, rfl⟩ := ihs hd' (by simpa using h)
          exact ⟨c :: v, .char hc hv, by simp⟩
      | @ref t n s hg hp hs _ =>
          rw [expandVar_ref hd hp, ha.text] at h
          cases hn : g n with
          | none =>
              rw [hn] at h
              obtain ⟨v, hv, rfl⟩ := ih hs hd h
              exact ⟨v, .undefined hg hn hv, rfl⟩
          | some var =>
              obtain ⟨f, b⟩ := var
              rw [hn] at h
              cases f with
              | immediate =>
                  have hd' : '$' ∉ d ++ b := by simp [hd, ha.done n b hn]
                  obtain ⟨v, hv, rfl⟩ := ih hs hd' (by simpa using h)
                  exact ⟨b ++ v, .immediate hg hn hv, by simp⟩
              | deferred =>
                  obtain ⟨hbplain, hbclosed⟩ := ha.plain n b hn
                  obtain ⟨v, hv, rfl⟩ := ih (hbplain.append hbclosed hs) hd h
                  obtain ⟨u, w, hu, hw, rfl⟩ := expands_append hbplain hv
                  exact ⟨u ++ w, .deferred hg hn hu hw, rfl⟩

section

variable {pool : VariablePool} {t v : Str}

/-- A plain text make expands is evaluated to the same. -/
theorem Agrees.eval_of_expands (env : Env) (ha : Agrees g pool.vars) (h : Expands g t v)
    (ht : Plain t) :
    ∃ k, ∀ fuel, k ≤ fuel → evalExpression env fuel pool t = some v := by
  have hv : '$' ∉ v := ha.not_mem_of_expands h ht
  obtain ⟨k, hk⟩ := ha.reaches h ht (d := []) (s := []) (by simp) (.inr rfl)
  refine ⟨k + 1, fun fuel hle => ?_⟩
  obtain ⟨j, rfl⟩ := Nat.exists_eq_add_of_le' hle
  have hloop : expandVar pool.vars (j + 1 + k) t = some v := by
    simpa [expandVar, searchRef_of_not_mem hv] using hk (j + 1)
  rw [evalExpression, show j + (k + 1) = j + 1 + k by omega, hloop, Option.bind_some,
    expandFun_of_search (search_functionCallRx (.inl hv))]

/-- What a plain text is evaluated to is what make gives. -/
theorem Agrees.expands_of_eval {fuel : Nat} (ha : Agrees g pool.vars) (ht : Plain t)
    (h : evalExpression env fuel pool t = some v) : Expands g t v := by
  obtain ⟨u, hu, hv⟩ := Option.bind_eq_some_iff.mp h
  obtain ⟨w, hw, rfl⟩ := ha.expands ht (d := []) (by simp) hu
  have hfun := search_functionCallRx (.inl (ha.not_mem_of_expands hw ht))
  rw [expandFun_of_search hfun] at hv
  obtain rfl := Option.some.inj hv
  exact hw

end

/-! ### One assignment -/

/-- The assignment means the same for the pool: its text is plain, the variable of a
`?=` is set already, and a `+=` to a variable that is not immediate has nothing to
expand. -/
def Safe (g : State) (a : Assignment) : Prop :=
  match a.op with
  | .deferred => Plain a.text ∧ Closed a.text
  | .immediate => Plain a.text
  | .append =>
      match g a.name with
      | some ⟨.immediate, _⟩ => Plain a.text
      | _ => '$' ∉ a.text
  | .conditional => g a.name ≠ none

theorem Agrees.set {pool : VariablePool} (ha : Agrees g pool.vars) {x t : Str} {f : Flavor}
    (hdef : f = .deferred → Plain t ∧ Closed t) (himm : f = .immediate → '$' ∉ t) :
    Agrees (g.set x f t) (pool.set x t).vars where
  text n := by
    by_cases e : n = x
    · subst e
      simp [State.set, VariablePool.set]
    · simp [State.set, VariablePool.set, Function.update_of_ne e, ha.text n]
  plain n b hn := by
    by_cases e : n = x
    · subst e
      simp only [State.set, Function.update_self, Option.some.injEq, Var.mk.injEq] at hn
      obtain ⟨rfl, rfl⟩ := hn
      exact hdef rfl
    · exact ha.plain n b (by simpa [State.set, Function.update_of_ne e] using hn)
  done n u hn := by
    by_cases e : n = x
    · subst e
      simp only [State.set, Function.update_self, Option.some.injEq, Var.mk.injEq] at hn
      obtain ⟨rfl, rfl⟩ := hn
      exact himm rfl
    · exact ha.done n u (by simpa [State.set, Function.update_of_ne e] using hn)

theorem evalExpression_of_not_mem {t : Str} (h : '$' ∉ t) (fuel : Nat) (pool : VariablePool) :
    evalExpression env (fuel + 1) pool t = some t :=
  evalExpression_of_search (searchRef_of_not_mem h) (search_functionCallRx (.inl h)) fuel pool

/-- A deferred text with something appended that has no references: none arises where the two meet,
because the space between them is no part of one. -/
theorem plain_append_text {u t : Str} (hu : Plain u ∧ Closed u) (ht : '$' ∉ t) :
    Plain (u ++ ' ' :: t) ∧ Closed (u ++ ' ' :: t) := by
  have htail : '$' ∉ ' ' :: t := by simpa using ht
  refine ⟨hu.1.append hu.2 (plain_of_not_mem htail), ?_⟩
  intro a c hc e
  rcases List.append_eq_append_iff.mp e with ⟨b, -, hb⟩ | ⟨b, -, hb⟩
  · -- the reference would be part of the new text
    rw [hb] at htail
    simp at htail
  · -- the space would be part of the reference
    rcases b with _ | ⟨d, _ | ⟨d', b⟩⟩
    · simp at hb
    · obtain rfl : c = ' ' := by
        simp only [List.cons_append, List.nil_append, List.cons.injEq] at hb
        exact hb.2.1
      exact absurd hc (by decide)
    · simp at hb

section

variable {pool : VariablePool} {a : Assignment}

/-- The pool follows make over a safe assignment. One case for each rule of make; the conditions of
`Safe` are what each case needs of the text. -/
theorem Agrees.step_forward (env : Env) {g' : State} (ha : Agrees g pool.vars)
    (hsafe : Safe g a) (h : Step g a g') : ∃ pool', Agrees g' pool'.vars ∧ pool'.makefile = pool.makefile ∧
      ∃ k, ∀ fuel, k ≤ fuel → addVariable env fuel pool a = some pool' := by
  cases h with
  | deferred x t =>
      exact ⟨_, ha.set (fun _ => hsafe) (fun h => by cases h), rfl, 0, fun _ _ => rfl⟩
  | @immediate x t v hv =>
      obtain ⟨k, hk⟩ := ha.eval_of_expands env hv hsafe
      refine ⟨pool.set x v, ha.set (fun h => by cases h)
        (fun _ => ha.not_mem_of_expands hv hsafe), rfl, k, fun fuel hle => ?_⟩
      simp only [addVariable, hk fuel hle, Option.map_some]
  | @appendNew x t hx =>
      have ht : '$' ∉ t := by simpa [Safe, hx] using hsafe
      have hold : pool.vars x = none := by rw [ha.text, hx]; rfl
      refine ⟨pool.set x t, ha.set (fun _ => ⟨plain_of_not_mem ht, closed_of_not_mem ht⟩)
        (fun h => by cases h), rfl, 1, fun fuel hle => ?_⟩
      obtain ⟨j, rfl⟩ := Nat.exists_eq_add_of_le' hle
      simp only [addVariable, evalExpression_of_not_mem ht, Option.map_some, hold]
  | @appendDeferred x u t hx =>
      have ht : '$' ∉ t := by simpa [Safe, hx] using hsafe
      have hold : pool.vars x = some u := by rw [ha.text, hx]; rfl
      refine ⟨pool.set x (u ++ ' ' :: t), ha.set (fun _ => plain_append_text (ha.plain x u hx) ht)
        (fun h => by cases h), rfl, 1, fun fuel hle => ?_⟩
      obtain ⟨j, rfl⟩ := Nat.exists_eq_add_of_le' hle
      simp only [addVariable, evalExpression_of_not_mem ht, Option.map_some, hold]
  | @appendImmediate x t u v hx hv =>
      have ht : Plain t := by simpa [Safe, hx] using hsafe
      have hold : pool.vars x = some u := by rw [ha.text, hx]; rfl
      have hnew : '$' ∉ u ++ ' ' :: v := by
        simp [ha.done x u hx, ha.not_mem_of_expands hv ht]
      obtain ⟨k, hk⟩ := ha.eval_of_expands env hv ht
      refine ⟨pool.set x (u ++ ' ' :: v), ha.set (fun h => by cases h) (fun _ => hnew), rfl, k,
        fun fuel hle => ?_⟩
      simp only [addVariable, hk fuel hle, Option.map_some, hold]
  | conditionalNew t hx => exact absurd hx hsafe
  | conditionalOld t hx => exact ⟨pool, ha, rfl, 0, fun _ _ => rfl⟩

/-- Make takes a safe assignment if what it has to expand has a value. The other assignments store a
text as it is, or do nothing. -/
theorem exists_step (hsafe : Safe g a)
    (h : Plain a.text → a.op = .immediate ∨ a.op = .append → ∃ v, Expands g a.text v) :
    ∃ g', Step g a g' := by
  obtain ⟨x, op, t⟩ := a
  cases op with
  | deferred => exact ⟨_, .deferred x t⟩
  | immediate =>
      obtain ⟨v, hv⟩ := h hsafe (.inl rfl)
      exact ⟨_, .immediate hv⟩
  | append =>
      cases hx : g x with
      | none => exact ⟨_, .appendNew t hx⟩
      | some var =>
          obtain ⟨f, u⟩ := var
          cases f with
          | deferred => exact ⟨_, .appendDeferred t hx⟩
          | immediate =>
              have ht : Plain t := by simpa [Safe, hx] using hsafe
              obtain ⟨v, hv⟩ := h ht (.inr rfl)
              exact ⟨_, .appendImmediate hx hv⟩
  | conditional => exact ⟨g, .conditionalOld t hsafe⟩

/-- Make follows the pool over a safe assignment. Make has a step because the value exists, and the
step forward makes the same pool of it. -/
theorem Agrees.step_backward {pool' : VariablePool} {fuel : Nat} (ha : Agrees g pool.vars)
    (hsafe : Safe g a) (h : addVariable env fuel pool a = some pool') :
    ∃ g', Step g a g' ∧ Agrees g' pool'.vars := by
  have hstep : ∃ g', Step g a g' := by
    refine exists_step hsafe fun ht hop => ?_
    obtain ⟨v, hv⟩ : ∃ v, evalExpression env fuel pool a.text = some v := by
      rcases hop with hop | hop
      · simp only [addVariable, hop] at h
        obtain ⟨v, hv, -⟩ := Option.map_eq_some_iff.mp h
        exact ⟨v, hv⟩
      · simp only [addVariable, hop] at h
        obtain ⟨v, hv, -⟩ := Option.map_eq_some_iff.mp h
        exact ⟨v, hv⟩
    exact ⟨v, ha.expands_of_eval ht hv⟩
  obtain ⟨g', hg'⟩ := hstep
  -- with enough fuel the pool takes the step of make, and more fuel changes nothing
  obtain ⟨pool₁, hagrees, -, k, hk⟩ := ha.step_forward env hsafe hg'
  have hmax := hk (max k fuel) (Nat.le_max_left k fuel)
  rw [addVariable_mono h (Nat.le_max_right k fuel)] at hmax
  obtain rfl := Option.some.inj hmax
  exact ⟨g', hg', hagrees⟩

end

/-! ### A whole makefile -/

/-- Every assignment is safe where it stands. -/
def SafeRun : State → List Assignment → Prop
  | _, [] => True
  | g, a :: as => Safe g a ∧ ∀ g', Step g a g' → SafeRun g' as

/-- There is no reference cycle before any of the assignments, nor at the end. -/
def AcyclicRun : State → List Assignment → Prop
  | g, [] => Acyclic g
  | g, a :: as => Acyclic g ∧ ∀ g', Step g a g' → AcyclicRun g' as

/-- The pool after some assignments. -/
def addVariables (env : Env) (fuel : Nat) (pool : VariablePool) (as : List Assignment) :
    Option VariablePool :=
  as.foldlM (addVariable env fuel) pool

section

variable {pool : VariablePool} {as : List Assignment}

theorem Agrees.run_forward (env : Env) {g' : State} (ha : Agrees g pool.vars)
    (hsafe : SafeRun g as) (h : Run g as g') : ∃ pool', Agrees g' pool'.vars ∧
      ∃ k, ∀ fuel, k ≤ fuel → addVariables env fuel pool as = some pool' := by
  induction h generalizing pool with
  | nil => exact ⟨pool, ha, 0, fun _ _ => rfl⟩
  | cons hstep _ ih =>
      obtain ⟨pool₁, ha₁, -, k₁, hk₁⟩ := ha.step_forward env hsafe.1 hstep
      obtain ⟨pool₂, ha₂, k₂, hk₂⟩ := ih ha₁ (hsafe.2 _ hstep)
      refine ⟨pool₂, ha₂, max k₁ k₂, fun fuel hle => ?_⟩
      rw [addVariables, List.foldlM_cons, hk₁ fuel (by omega)]
      exact hk₂ fuel (by omega)

theorem Agrees.run_backward {pool' : VariablePool} {fuel : Nat} (ha : Agrees g pool.vars)
    (hsafe : SafeRun g as) (h : addVariables env fuel pool as = some pool') :
    ∃ g', Run g as g' ∧ Agrees g' pool'.vars := by
  induction as generalizing g pool with
  | nil =>
      obtain rfl : pool = pool' := Option.some.inj h
      exact ⟨g, .nil g, ha⟩
  | cons a as ih =>
      rw [addVariables, List.foldlM_cons] at h
      obtain ⟨pool₁, h₁, h₂⟩ := Option.bind_eq_some_iff.mp h
      obtain ⟨g₁, hstep, ha₁⟩ := ha.step_backward hsafe.1 h₁
      obtain ⟨g₂, hrun, ha₂⟩ := ih ha₁ (hsafe.2 _ hstep) h₂
      exact ⟨g₂, .cons hstep hrun, ha₂⟩

theorem Agrees.text_of_deferred {vars : Str → Option Str} (ha : Agrees g vars) :
    ∀ x b, g x = some ⟨.deferred, b⟩ → Text b :=
  fun x b hb => (ha.plain x b hb).1.text

/-- Without reference cycles make runs to the end, and there every plain text has a
value. -/
theorem Agrees.exists_run (ha : Agrees g pool.vars) (hfin : {x | g x ≠ none}.Finite)
    (hsafe : SafeRun g as) (hcycle : AcyclicRun g as) :
    ∃ g', Run g as g' ∧ ∀ t, Plain t → ∃ v, Expands g' t v := by
  induction as generalizing g pool with
  | nil =>
      exact ⟨g, .nil g, fun t ht => expands_of_acyclic hfin hcycle ha.text_of_deferred ht.text⟩
  | cons a as ih =>
      obtain ⟨g₁, hstep⟩ := exists_step hsafe.1 fun ht _ =>
        expands_of_acyclic hfin hcycle.1 ha.text_of_deferred ht.text
      -- the invariant does not depend on the surroundings of the pool
      obtain ⟨pool₁, ha₁, -⟩ := ha.step_forward Env.bare hsafe.1 hstep
      obtain ⟨g₂, hrun, hval⟩ :=
        ih ha₁ (hstep.finite hfin) (hsafe.2 _ hstep) (hcycle.2 _ hstep)
      exact ⟨g₂, .cons hstep hrun, hval⟩

end

/-- The pool after some lines of a makefile; `add_variable` leaves it alone at a line that
is no assignment. -/
def addLines (env : Env) (fuel : Nat) (pool : VariablePool) (lines : List Str) :
    Option VariablePool :=
  lines.foldlM (fun pool line =>
    match assignment line with
    | some a => addVariable env fuel pool a
    | none => some pool) pool

theorem addLines_eq {fuel : Nat} {pool : VariablePool} {lines : List Str} {as : List Assignment}
    (h : lines.mapM assignment = some as) :
    addLines env fuel pool lines = addVariables env fuel pool as := by
  induction lines generalizing pool as with
  | nil =>
      obtain rfl : [] = as := by simpa using h
      rfl
  | cons line lines ih =>
      rw [List.mapM_cons] at h
      obtain ⟨a, ha, h⟩ := Option.bind_eq_some_iff.mp h
      obtain ⟨as', has, h⟩ := Option.bind_eq_some_iff.mp h
      obtain rfl : a :: as' = as := Option.some.inj h
      rw [addLines, addVariables, List.foldlM_cons, List.foldlM_cons, ha]
      exact bind_congr fun pool' => ih has

/-- `eval_expression('$(x)')` on the pool some lines of a makefile build. -/
def evalAfter (env : Env) (makefile : Str) (fuel : Nat) (lines : List Str) (x : Str) :
    Option Str :=
  (addLines env fuel ⟨makefile, fun _ => none⟩ lines).bind fun pool =>
    evalExpression env fuel pool ('$' :: '(' :: (x ++ [')']))

theorem agrees_empty : Agrees State.empty (fun _ => none) where
  text _ := rfl
  plain _ _ h := by cases h
  done _ _ h := by cases h

theorem isNameChar_of_isWord {c : Char} (h : isWord c = true) : isNameChar c = true := by
  have hne : ∀ d, isWord d = false → (c == d) = false := by
    intro d hd
    rw [beq_eq_false_iff_ne]
    rintro rfl
    rw [h] at hd
    cases hd
  have hblank : isBlank c = false := by
    by_contra hb
    rw [isWord_of_isBlank (by simpa using hb)] at h
    cases h
  simp [isNameChar, hblank, hne '$' (by decide), hne '(' (by decide), hne ')' (by decide),
    hne '{' (by decide), hne '}' (by decide), hne ':' (by decide), hne '#' (by decide),
    hne '=' (by decide)]

theorem isNameChar_of_isName {x : Str} (hx : isName x = true) : ∀ c ∈ x, isNameChar c = true := by
  intro c hc
  simp only [isName, Bool.and_eq_true, List.all_eq_true] at hx
  exact isNameChar_of_isWord (hx.2 c hc)

theorem plain_reference {x : Str} (hx : isName x = true) : Plain ('$' :: '(' :: (x ++ [')'])) :=
  .ref (.paren [] (isNameChar_of_isName hx))
    (refAt_eq_some_iff.mpr (.inl ⟨'(', x ++ [')'], rfl, .inl rfl,
      bracketRef_eq_some_iff.mpr ⟨hx, .inl rfl⟩⟩)) .nil

theorem evalAfter_of_value (env : Env) (makefile : Str) {lines : List Str}
    {as : List Assignment} (hlines : lines.mapM assignment = some as)
    (hsafe : SafeRun State.empty as) {x v : Str} (hx : isName x = true) {g : State}
    (hrun : Run State.empty as g) (hv : Value g x v) :
    ∃ k, ∀ fuel, k ≤ fuel → evalAfter env makefile fuel lines x = some v := by
  have hempty : Agrees State.empty (VariablePool.mk makefile fun _ => none).vars := agrees_empty
  obtain ⟨pool, ha, k₁, hk₁⟩ := hempty.run_forward env hsafe hrun
  obtain ⟨k₂, hk₂⟩ := ha.eval_of_expands env hv (plain_reference hx)
  refine ⟨max k₁ k₂, fun fuel hle => ?_⟩
  rw [evalAfter, addLines_eq hlines, hk₁ fuel (by omega)]
  exact hk₂ fuel (by omega)

/-- **Safe assignments keep GNU make's meaning**: the pool gives a variable the value make
gives it, and none if make gives none; without reference cycles there is one. Both states are
compared after every assignment (`Agrees`). What keeps them together is that a safe assignment
never stores a text the pool would expand at another time than make does. -/
theorem evalExpression_eq_gnu (env : Env) (makefile : Str) {lines : List Str}
    {as : List Assignment} (hlines : lines.mapM assignment = some as)
    (hsafe : SafeRun State.empty as) :
    (∀ x v, isName x = true →
      ((∃ g, Run State.empty as g ∧ Value g x v) ↔
        ∃ k, ∀ fuel, k ≤ fuel → evalAfter env makefile fuel lines x = some v)) ∧
    (AcyclicRun State.empty as → ∀ x, isName x = true →
      ∃ g v, Run State.empty as g ∧ Value g x v ∧
        ∃ k, ∀ fuel, k ≤ fuel → evalAfter env makefile fuel lines x = some v) := by
  have hempty : Agrees State.empty (VariablePool.mk makefile fun _ => none).vars := agrees_empty
  refine ⟨fun x v hx => ⟨?_, ?_⟩, fun hcycle x hx => ?_⟩
  · intro h
    obtain ⟨g, hrun, hv⟩ := h
    exact evalAfter_of_value env makefile hlines hsafe hx hrun hv
  · intro h
    obtain ⟨k, hk⟩ := h
    have heval := hk k (Nat.le_refl k)
    rw [evalAfter, addLines_eq hlines] at heval
    obtain ⟨pool, hpool, hv⟩ := Option.bind_eq_some_iff.mp heval
    obtain ⟨g, hrun, ha⟩ := hempty.run_backward hsafe hpool
    exact ⟨g, hrun, ha.expands_of_eval (plain_reference hx) hv⟩
  · have hfin : {x | State.empty x ≠ none}.Finite := by simp [State.empty]
    obtain ⟨g, hrun, hval⟩ := hempty.exists_run hfin hsafe hcycle
    obtain ⟨v, hv⟩ := hval _ (plain_reference hx)
    exact ⟨g, v, hrun, hv, evalAfter_of_value env makefile hlines hsafe hx hrun hv⟩

/-- A deferred variable mentions an immediate one that grows afterwards. -/
theorem evalExpression_eq_gnu_grows :
    ∃ k, ∀ fuel, k ≤ fuel → evalAfter Env.bare "Android.mk".toList fuel
      ["A := a".toList, "B = $(A)/c".toList, "A += b".toList] "B".toList =
        some "a b/c".toList := by
  have hlines : ["A := a".toList, "B = $(A)/c".toList, "A += b".toList].mapM assignment =
      some [⟨"A".toList, .immediate, "a".toList⟩, ⟨"B".toList, .deferred, "$(A)/c".toList⟩,
        ⟨"A".toList, .append, "b".toList⟩] := by decide
  have href : Ref "$(A)/c".toList "A".toList "/c".toList :=
    Ref.paren (n := ['A']) ['/', 'c'] (isNameChar_of_isName (by decide))
  have hplain : Plain "$(A)/c".toList :=
    .ref href (by decide) (plain_of_not_mem (by decide))
  have hclosed : Closed "$(A)/c".toList := by
    intro a c _ e
    have := congrArg (fun s => s.reverse.take 2) e
    simp at this
  have hsafe : SafeRun State.empty [⟨"A".toList, .immediate, "a".toList⟩,
      ⟨"B".toList, .deferred, "$(A)/c".toList⟩, ⟨"A".toList, .append, "b".toList⟩] := by
    refine ⟨plain_of_not_mem (by decide), fun g₁ h₁ => ⟨⟨hplain, hclosed⟩, fun g₂ h₂ => ⟨?_, ?_⟩⟩⟩
    · cases h₁
      cases h₂
      exact plain_of_not_mem (by decide)
    · exact fun _ _ => trivial
  have ha : Expands State.empty "a".toList "a".toList := .char (by decide) .nil
  have hb : ∀ g, Expands g "b".toList "b".toList := fun g => .char (by decide) .nil
  let g₂ := (State.empty.set "A".toList .immediate "a".toList).set "B".toList .deferred
    "$(A)/c".toList
  let g₃ := g₂.set "A".toList .immediate "a b".toList
  have hA : g₂ "A".toList = some ⟨.immediate, "a".toList⟩ := by decide
  have hrun : Run State.empty _ g₃ := .cons (.immediate ha) (.cons (.deferred "B".toList _)
    (.cons (.appendImmediate hA (hb g₂)) (.nil g₃)))
  have hA' : g₃ "A".toList = some ⟨.immediate, "a b".toList⟩ := by decide
  have hB' : g₃ "B".toList = some ⟨.deferred, "$(A)/c".toList⟩ := by decide
  have hbody : Expands g₃ "$(A)/c".toList "a b/c".toList :=
    .immediate href hA' (.char (by decide) (.char (by decide) .nil))
  have hvalue : Value g₃ "B".toList "a b/c".toList :=
    .deferred (Ref.paren (n := ['B']) [] (isNameChar_of_isName (by decide))) hB' hbody .nil
  exact ((evalExpression_eq_gnu Env.bare "Android.mk".toList hlines hsafe).1 _ _ (by decide)).mp
    ⟨g₃, hrun, hvalue⟩

/-- `?=` to a variable that is not set: make sets it, the pool does not. -/
theorem conditional_ignored :
    ["A ?= x".toList].mapM assignment = some [⟨"A".toList, .conditional, "x".toList⟩] ∧
      (∃ g, Run State.empty [⟨"A".toList, .conditional, "x".toList⟩] g ∧
        Value g "A".toList "x".toList) ∧
      ∀ fuel, evalAfter Env.bare "Android.mk".toList (fuel + 2) ["A ?= x".toList] "A".toList =
        some [] := by
  let g := State.empty.set "A".toList .deferred "x".toList
  have hA : g "A".toList = some ⟨.deferred, "x".toList⟩ := by decide
  have hvalue : Value g "A".toList "x".toList :=
    .deferred (Ref.paren (n := ['A']) [] (isNameChar_of_isName (by decide))) hA (.char (by decide) .nil) .nil
  have hmap : ["A ?= x".toList].mapM assignment =
      some [⟨"A".toList, .conditional, "x".toList⟩] := by decide
  refine ⟨hmap, ⟨g, .cons (.conditionalNew _ rfl) (.nil g), hvalue⟩, fun fuel => ?_⟩
  rw [evalAfter, addLines_eq hmap]
  rfl

end BlogStuff.Adepends
