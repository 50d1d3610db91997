import BlogStuff.Adepends.Calls

/-!
# BlogStuff.Adepends.Composition

`eval_expression` on two expressions with a space between them. Variables do not mind: a
reference never holds a space, so that each expression expands as it does alone
(`expandVar_append`). Function calls do. `expand_fun` carries out one call only, and a call
takes all up to the last closing bracket in its reach, so that it swallows the text to its
right.

* `firstCall_append` is the step for two texts of which the first does not swallow the second;
* `Apart.expandFun_append` is that texts that keep apart are evaluated apart;
* `apart_iff_of_line` says what keeping `Apart` means for texts of one line.
-/

namespace BlogStuff.Adepends

open BlogStuff.Python

/-! ### Text behind a call -/

/-- A function that takes off the front of a text, and that text put behind does not make
take off less. -/
structure Cuts (f : Str → Str) : Prop where
  suffix : ∀ s, f s <:+ s
  append : ∀ s z, f (s ++ z) = f s ++ z ∨ f s = [] ∧ f (s ++ z) <:+ z

theorem Cuts.comp {f f' : Str → Str} (h : Cuts f) (h' : Cuts f') : Cuts fun s => f' (f s) where
  suffix s := (h'.suffix _).trans (h.suffix s)
  append s z := by
    rcases h.append s z with heq | ⟨hnil, hsuf⟩
    · rw [heq]
      exact h'.append (f s) z
    · refine .inr ⟨?_, (h'.suffix _).trans hsuf⟩
      rw [hnil]
      exact List.suffix_nil.mp (h'.suffix [])

theorem cuts_dropWhile (p : Char → Bool) : Cuts fun s => s.dropWhile p where
  suffix s := List.dropWhile_suffix p
  append s z := by
    rw [List.dropWhile_append]
    split_ifs with h
    · exact .inr ⟨List.isEmpty_iff.mp h, List.dropWhile_suffix p⟩
    · exact .inl rfl

theorem cuts_dropComma : Cuts dropComma where
  suffix s := by
    unfold dropComma
    split
    · exact List.suffix_cons _ _
    · exact List.suffix_refl _
  append s z := by
    cases s with
    | nil =>
        refine .inr ⟨rfl, ?_⟩
        rw [List.nil_append]
        unfold dropComma
        split
        · exact List.suffix_cons _ _
        · exact List.suffix_refl _
    | cons c s =>
        by_cases hc : c = ','
        · subst hc
          exact .inl rfl
        · rw [List.cons_append, dropComma_cons hc, dropComma_cons hc]
          exact .inl rfl

theorem cuts_beyond : Cuts beyond :=
  (((cuts_dropWhile isArgChar).comp cuts_dropComma).comp (cuts_dropWhile isBlank)).comp
    (cuts_dropWhile (· != '\n'))

/-- The reach of a call ends where it ended, or it ends in the text put behind. -/
theorem reach_append (r z : Str) :
    reach (r ++ z) = reach r ∧ beyond (r ++ z) = beyond r ++ z ∨
      beyond r = [] ∧ ∃ u, reach (r ++ z) = r ++ u ∧ u ++ beyond (r ++ z) = z := by
  rcases cuts_beyond.append r z with heq | ⟨hnil, u, hu⟩
  · have hall : reach (r ++ z) ++ beyond (r ++ z) = reach r ++ beyond (r ++ z) := by
      rw [reach_append_beyond, heq, ← List.append_assoc, reach_append_beyond]
    exact .inl ⟨List.append_cancel_right hall, heq⟩
  · have hall : reach (r ++ z) ++ beyond (r ++ z) = r ++ u ++ beyond (r ++ z) := by
      rw [reach_append_beyond, List.append_assoc, hu]
    exact .inr ⟨hnil, u, List.append_cancel_right hall, hu⟩

theorem openingAt_append {t name r : Str} (h : openingAt t = some (name, r)) (z : Str) :
    openingAt (t ++ z) = some (name, r ++ z) := by
  obtain ⟨rfl, hne, hname⟩ := openingAt_eq_some_iff.mp h
  exact openingAt_eq_some_iff.mpr ⟨by simp, hne, hname⟩

/-- A beginning that a space and more text give is there with the space alone. A name has no blank
in it, so the space either comes behind the opening or is the one that ends it. -/
theorem openingAt_of_space {t name s z : Str} (h : openingAt (t ++ ' ' :: z) = some (name, s)) :
    (∃ r, openingAt t = some (name, r) ∧ s = r ++ ' ' :: z) ∨
      openingAt t = none ∧ openingAt (t ++ [' ']) = some (name, []) ∧ s = z := by
  obtain ⟨ht, hne, hname⟩ := openingAt_eq_some_iff.mp h
  have hno : ' ' ∉ '$' :: '(' :: name := by
    have hlower : ' ' ∉ name := fun hmem => absurd (hname ' ' hmem) (by decide)
    simpa using hlower
  rcases cut_at hno ht.symm with ⟨r, rfl, hs⟩ | ⟨rfl, -, hs⟩
  · exact .inl ⟨r, openingAt_eq_some_iff.mpr ⟨rfl, hne, hname⟩, hs⟩
  · refine .inr ⟨?_, openingAt_eq_some_iff.mpr ⟨rfl, hne, hname⟩, hs⟩
    -- without the space the name does not end
    refine Option.eq_none_iff_forall_ne_some.mpr fun p hp => hno ?_
    rw [(openingAt_eq_some_iff.mp hp).1]
    simp

/-- Some call that begins in `x₁`, the space behind it included, has a closing bracket of
`x₂` in its reach. -/
def Swallows (x₁ x₂ : Str) : Prop :=
  ∃ a t name r u, x₁ ++ [' '] = a ++ t ∧ openingAt t = some (name, r) ∧
    reach (r ++ x₂) = r ++ u ∧ ')' ∈ u

theorem Swallows.cons {x₁ x₂ : Str} (h : Swallows x₁ x₂) (c : Char) : Swallows (c :: x₁) x₂ := by
  obtain ⟨a, t, name, r, u, hx, hopen⟩ := h
  exact ⟨c :: a, t, name, r, u, by rw [List.cons_append, hx, List.cons_append], hopen⟩

/-- A call is read the same with more text behind it, if the closing brackets there are out
of its reach. -/
theorem callAt_followed {t name r z : Str} (h : openingAt t = some (name, r))
    (hout : ∀ u, reach (r ++ z) = r ++ u → ')' ∉ u) :
    callAt (t ++ z) = (callAt t).map (Call.followed z) := by
  have hlong : openingAt (t ++ z) = some (name, r ++ z) := openingAt_append h z
  rcases reach_append r z with ⟨hsame, hbeyond⟩ | ⟨hnil, u, hr, hu⟩
  · -- the line of the call ends before
    rcases last_char ')' (reach r) with hno | ⟨args, after, hcut, hafter⟩
    · rw [callAt_of_not_mem h hno, callAt_of_not_mem hlong (by rwa [hsame])]
      rfl
    · rw [callAt_of_reach h hcut hafter, callAt_of_reach hlong (hsame.trans hcut) hafter, hbeyond]
      simp [Call.followed]
  · -- the line goes on
    have huno := hout u hr
    have hall : reach r = r := by
      have hr := reach_append_beyond r
      rwa [hnil, List.append_nil] at hr
    rcases last_char ')' r with hno | ⟨args, after, hcut, hafter⟩
    · rw [callAt_of_not_mem h (by rwa [hall]), callAt_of_not_mem hlong (by simp [hr, hno, huno])]
      rfl
    · have hcut' : reach (r ++ z) = args ++ ')' :: (after ++ u) := by
        rw [hr, hcut]
        simp
      rw [callAt_of_reach h (hall.trans hcut) hafter,
        callAt_of_reach hlong hcut' (by simp [hafter, huno]), hnil]
      simp [Call.followed, hu]

/-- A place from which nothing behind the space is reached is read as without it. An opening that
the space completes has no bracket in reach and is no call. -/
theorem callAt_append {t z : Str} (h : ¬ Swallows t z) :
    callAt (t ++ ' ' :: z) = (callAt t).map (Call.followed (' ' :: z)) := by
  have hout : ∀ name r u, openingAt (t ++ [' ']) = some (name, r) → reach (r ++ z) = r ++ u →
      ')' ∉ u := by
    intro name r u hopen hr hu
    exact h ⟨[], t ++ [' '], name, r, u, rfl, hopen, hr, hu⟩
  cases ht : openingAt t with
  | some p =>
      obtain ⟨name, r⟩ := p
      refine callAt_followed ht fun u hr => ?_
      cases u with
      | nil => simp
      | cons c u =>
          -- the reach covers the space
          have hall := reach_append_beyond (r ++ ' ' :: z)
          rw [hr, List.append_assoc] at hall
          obtain ⟨rfl, -⟩ := List.cons.inj (List.append_cancel_left hall)
          have hu := hout name (r ++ [' ']) u (openingAt_append ht [' ']) (by simpa using hr)
          simpa using hu
  | none =>
      rw [callAt_of_no_opening ht]
      cases hopen : openingAt (t ++ ' ' :: z) with
      | none => exact callAt_of_no_opening hopen
      | some p =>
          obtain ⟨name, s⟩ := p
          rcases openingAt_of_space hopen with ⟨r, hr, -⟩ | ⟨-, hspace, rfl⟩
          · rw [ht] at hr
            cases hr
          · exact callAt_of_not_mem hopen (hout name [] (reach s) hspace rfl)

/-- **Two texts with a space between them.** If no call of the first reaches into the
second, the first call of both is the one of the first text, or else of the second. -/
theorem firstCall_append {x₁ x₂ : Str} (h : ¬ Swallows x₁ x₂) :
    firstCall (x₁ ++ ' ' :: x₂) =
      ((firstCall x₁).map (Call.followed (' ' :: x₂))).or
        ((firstCall x₂).map (Call.behind (x₁ ++ [' ']))) := by
  induction x₁ with
  | nil =>
      have hspace : firstCall (' ' :: x₂) = (firstCall x₂).map (Call.behind [' ']) := by
        rw [firstCall, callAt_of_no_opening rfl]
      rw [List.nil_append, hspace]
      rfl
  | cons c s ih =>
      have hhere := callAt_append h
      rw [List.cons_append] at hhere ⊢
      rw [firstCall, firstCall, hhere, ih fun hs => h (hs.cons c)]
      cases callAt (c :: s) with
      | some call => rfl
      | none =>
          cases firstCall s with
          | some call => rfl
          | none =>
              cases firstCall x₂ with
              | some call => rfl
              | none => rfl

/-- A call somewhere is enough for a first one, although text in front of it may make another one
the first. -/
theorem firstCall_of_callAt_ne_none {t : Str} (h : callAt t ≠ none) (a : Str) : firstCall (a ++ t) ≠ none := by
  induction a with
  | nil =>
      cases t with
      | nil => exact h
      | cons c s =>
          obtain ⟨call, hcall⟩ := Option.ne_none_iff_exists'.mp h
          rw [List.nil_append, firstCall, hcall]
          simp
  | cons c a ih =>
      obtain ⟨call, hcall⟩ := Option.ne_none_iff_exists'.mp ih
      rw [List.cons_append, firstCall]
      split
      · simp
      · rw [hcall]
        simp

/-! ### Evaluating two expressions at once -/

theorem searchRef_append_space {d : Str} (h : searchRef d = none) (e : Str) :
    searchRef (d ++ ' ' :: e) =
      (searchRef e).map fun (before, name, after) => (d ++ ' ' :: before, name, after) := by
  induction d with
  | nil => exact searchRef_append (a := [' ']) (by decide) e
  | cons c d ih =>
      have hall := searchRef_eq_none_iff.mp h
      have hd : searchRef d = none := searchRef_eq_none_iff.mpr fun a b hab =>
        hall (c :: a) b (by rw [hab, List.cons_append])
      have hhere := refAt_append_blank (hall [] (c :: d) rfl) (b := ' ') (by decide) e
      rw [List.cons_append] at hhere ⊢
      rw [searchRef, hhere, ih hd, Option.map_map]
      rfl

/-- A search that ends before the space does not see what stands behind it. No reference begins
before the space and ends behind it. -/
theorem searchRef_append_of_some {e b n a : Str} (h : searchRef e = some (b, n, a)) (z : Str) :
    searchRef (e ++ ' ' :: z) = some (b, n, a ++ ' ' :: z) := by
  induction e generalizing b with
  | nil => cases h
  | cons c s ih =>
      rw [searchRef] at h
      rw [List.cons_append, searchRef, ← List.cons_append]
      cases hc : refAt (c :: s) with
      | some p =>
          rw [hc] at h
          obtain ⟨rfl, hp⟩ := Prod.mk.inj (Option.some.inj h)
          obtain ⟨rfl, rfl⟩ := Prod.mk.inj hp
          rw [refAt_append hc]
          intro _ _ _ d hd
          obtain rfl := Option.some.inj hd
          decide
      | none =>
          rw [hc] at h
          obtain ⟨⟨b', n', a'⟩, hs, hp⟩ := Option.map_eq_some_iff.mp h
          cases hp
          rw [refAt_append_blank hc (by decide), ih hs]
          rfl

theorem expandVar_append_done {vars : Str → Option Str} {d : Str} (hd : searchRef d = none)
    {fuel : Nat} {e x : Str} (h : expandVar vars fuel e = some x) :
    expandVar vars fuel (d ++ ' ' :: e) = some (d ++ ' ' :: x) := by
  induction fuel generalizing e with
  | zero => cases h
  | succ fuel ih =>
      rw [expandVar] at h ⊢
      rw [searchRef_append_space hd]
      cases hs : searchRef e with
      | none =>
          rw [hs] at h
          rw [← Option.some.inj h]
          rfl
      | some p =>
          rw [hs] at h
          have hrest := ih h
          simpa using hrest

/-- **Variables of two expressions with a space between them.** The loop first works on the left
expression until no reference is left there, then on the right one; no reference reaches over the
space. -/
theorem expandVar_append {vars : Str → Option Str} {fuel₁ fuel₂ : Nat} {e₁ e₂ x₁ x₂ : Str}
    (h₁ : expandVar vars fuel₁ e₁ = some x₁) (h₂ : expandVar vars fuel₂ e₂ = some x₂) :
    expandVar vars (fuel₁ + fuel₂) (e₁ ++ ' ' :: e₂) = some (x₁ ++ ' ' :: x₂) := by
  induction fuel₁ generalizing e₁ with
  | zero => cases h₁
  | succ fuel₁ ih =>
      rw [expandVar] at h₁
      cases hs : searchRef e₁ with
      | none =>
          rw [hs] at h₁
          obtain rfl := Option.some.inj h₁
          exact expandVar_mono (expandVar_append_done hs h₂) (Nat.le_add_left fuel₂ _)
      | some p =>
          obtain ⟨b, n, a⟩ := p
          rw [hs] at h₁
          rw [Nat.add_right_comm, expandVar, searchRef_append_of_some hs]
          simpa using ih h₁

/-- The two values with a space between them, if both evaluations return. -/
def joined (v₁ v₂ : Option Str) : Option Str := v₁.bind fun a => v₂.map fun b => a ++ ' ' :: b

/-- Two texts without references keep apart: no call of the first reaches into the second,
at most one of them has a call, and the function of that call is known. -/
structure Apart (env : Env) (makefile x₁ x₂ : Str) : Prop where
  out : ¬ Swallows x₁ x₂
  one : firstCall x₁ = none ∨ firstCall x₂ = none
  known : ∀ call, firstCall x₁ = some call ∨ firstCall x₂ = some call →
    call.known env makefile = true

section

variable {env : Env} {makefile x₁ x₂ : Str}

/-- The result of a known function does not depend on the text around the call. -/
theorem Call.result_of_known {call call' : Call} (h : call.known env makefile = true)
    (hname : call'.name = call.name) (hargs : call'.args = call.args) (x x' : Str) :
    call'.result env makefile x' = call.result env makefile x := by
  unfold Call.known at h
  rw [Call.result, Call.result, Call.function, Call.argument, hname, hargs, ← Call.function,
    ← Call.argument]
  cases hf : (mkFunctions env makefile).lookup call.function with
  | some f => rfl
  | none =>
      rw [hf] at h
      cases h

/-- Texts that keep apart are evaluated apart. Only the first call of a text is carried out, so one
of the two must have none; a known function sees nothing but its arguments. -/
theorem Apart.expandFun_append (h : Apart env makefile x₁ x₂) :
    expandFun env makefile (x₁ ++ ' ' :: x₂) =
      joined (expandFun env makefile x₁) (expandFun env makefile x₂) := by
  rw [expandFun_eq, expandFun_eq, expandFun_eq, firstCall_append h.out]
  cases h₁ : firstCall x₁ with
  | some call =>
      have h₂ : firstCall x₂ = none := h.one.resolve_left (by simp [h₁])
      have hres : (call.followed (' ' :: x₂)).result env makefile (x₁ ++ ' ' :: x₂) =
          call.result env makefile x₁ :=
        Call.result_of_known (h.known call (.inl h₁)) rfl rfl _ _
      rw [h₂]
      simp only [Option.map_some, Option.some_or, hres]
      cases call.result env makefile x₁ with
      | none => rfl
      | some v => simp [joined, Call.replaced, Call.followed]
  | none =>
      cases h₂ : firstCall x₂ with
      | none => rfl
      | some call =>
          have hres : (call.behind (x₁ ++ [' '])).result env makefile (x₁ ++ ' ' :: x₂) =
              call.result env makefile x₂ :=
            Call.result_of_known (h.known call (.inr h₂)) rfl rfl _ _
          simp only [Option.map_some, Option.map_none, Option.none_or, hres]
          cases call.result env makefile x₂ with
          | none => rfl
          | some v => simp [joined, Call.replaced, Call.behind]

theorem reach_of_line {r : Str} (h : '\n' ∉ r) : reach r = r := by
  have hall := reach_append_beyond r
  have hbeyond : beyond r = [] := by
    obtain ⟨a, ha, -⟩ := exists_lineStart r
    refine List.dropWhile_eq_nil_iff.mpr (bne_of_not_mem fun hmem => h ?_)
    rw [ha]
    exact List.mem_append_right a hmem
  rwa [hbeyond, List.append_nil] at hall

/-- No call begins in the text, or in it and the space behind it. -/
def NoOpening (x : Str) : Prop := ∀ a t, x ++ [' '] = a ++ t → openingAt t = none

theorem firstCall_of_forall_callAt {x : Str} (h : ∀ a t, x = a ++ t → callAt t = none) :
    firstCall x = none := by
  induction x with
  | nil => rfl
  | cons c s ih =>
      rw [firstCall, h [] (c :: s) rfl, ih fun a t hat => h (c :: a) t (by rw [hat, List.cons_append])]
      rfl

theorem NoOpening.firstCall_eq_none {x : Str} (h : NoOpening x) : firstCall x = none := by
  refine firstCall_of_forall_callAt fun a t hat => callAt_of_no_opening ?_
  refine Option.eq_none_iff_forall_ne_some.mpr fun p hp => ?_
  have hlong := h a (t ++ [' ']) (by rw [hat, List.append_assoc])
  rw [openingAt_append hp] at hlong
  cases hlong

theorem firstCall_of_not_mem {x : Str} (h : ')' ∉ x) : firstCall x = none := by
  refine firstCall_of_forall_callAt fun a t hat => ?_
  refine Option.eq_none_iff_forall_ne_some.mpr fun call hcall => h ?_
  obtain ⟨r, after, hopen, -, hr, -⟩ := of_callAt hcall
  have hmem : ')' ∈ r := by
    rw [← reach_append_beyond r, hr]
    simp
  rw [hat, (openingAt_eq_some_iff.mp hopen).1]
  simp [hmem]

/-- **On one line**, and with known functions, two texts keep apart exactly if the first has
no call or the second has no closing bracket. -/
theorem apart_iff_of_line (hx₁ : '\n' ∉ x₁) (hx₂ : '\n' ∉ x₂)
    (hknown : ∀ call, firstCall x₁ = some call ∨ firstCall x₂ = some call →
      call.known env makefile = true) :
    Apart env makefile x₁ x₂ ↔ NoOpening x₁ ∨ ')' ∉ x₂ := by
  constructor
  · intro h
    by_contra hboth
    obtain ⟨hopen, hparen⟩ := not_or.mp hboth
    refine hopen fun a t hat => Option.eq_none_iff_forall_ne_some.mpr fun p hp => ?_
    obtain ⟨name, r⟩ := p
    have hline : '\n' ∉ r ++ x₂ := by
      have hr : '\n' ∉ x₁ ++ [' '] := by simpa using hx₁
      rw [hat, (openingAt_eq_some_iff.mp hp).1] at hr
      simp_all
    exact h.out ⟨a, t, name, r, x₂, hat, hp, reach_of_line hline, not_not.mp hparen⟩
  · intro h
    refine ⟨?_, ?_, hknown⟩
    · intro hswallow
      obtain ⟨a, t, name, r, u, hat, hopen, hr, hu⟩ := hswallow
      rcases h with h | h
      · rw [h a t hat] at hopen
        cases hopen
      · have hall := reach_append_beyond (r ++ x₂)
        rw [hr, List.append_assoc] at hall
        exact h (List.append_cancel_left hall ▸ List.mem_append_left _ hu)
    · exact h.imp NoOpening.firstCall_eq_none firstCall_of_not_mem

end

end BlogStuff.Adepends
