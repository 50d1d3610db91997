import BlogStuff.Adepends.Sections
import BlogStuff.Adepends.Substitution

/-!
# BlogStuff.Adepends.Depends

What the `depends` list of a module holds after `parse_makefile`. The section of the module
fills the list with the words of its library lines as they are written, and the loop at the end
evaluates them word by word, with the variables as they are at the end of the file.

That gives the words of the right-hand sides, each evaluated as a whole and where it stands, for
a section of the following kind. Every `$` of a library line begins a reference, so splitting
the line into words cuts nothing in two; the variables it refers to are set by such texts
(`ModuleSection.Plain`), so that their values hold no `$` and are not evaluated a second time;
and none of them is set again at the line or behind it (`Steady`). All this can be read off the
lines of the makefile. `depends_perm_iff` has that it is enough, and that the last condition is
necessary where the texts that set such a variable again bring a character of their own.
-/

namespace BlogStuff.Adepends

open BlogStuff.Python BlogStuff.Make

variable {env : Env} {fuel : Nat}

/-! ### The assignments of a makefile -/

/-- The assignments some lines carry out: the lines of function definitions are left out. -/
def assignments : Bool → List Str → List Assignment
  | _, [] => []
  | inDefine, line :: lines =>
      let inDefine := if isEndef line then false else isDefine line || inDefine
      (if inDefine then [] else (assignment line).toList) ++ assignments inDefine lines

/-- A library line. -/
def isLibraries (a : Assignment) : Bool :=
  a.name == "LOCAL_STATIC_LIBRARIES".toList || a.name == "LOCAL_SHARED_LIBRARIES".toList

/-- What an assignment gives if it is a library line. -/
def ifLibraries (f : Str → List Str) (a : Assignment) : List Str :=
  if isLibraries a then f a.text else []

/-- The words of the library lines, each right-hand side evaluated as a whole where the line
stands. -/
def pointWords (env : Env) (fuel : Nat) : VariablePool → List Assignment → Option (List Str)
  | _, [] => some []
  | pool, a :: as =>
      (addVariable env fuel pool a).bind fun pool' =>
        (pointWords env fuel pool' as).bind fun rest =>
          if isLibraries a then
            (evalExpression env fuel pool a.text).map fun v => words v ++ rest
          else some rest

theorem addVariables_append {pool pool' : VariablePool} {as bs : List Assignment} :
    addVariables env fuel pool (as ++ bs) = some pool' ↔
      ∃ pool₁, addVariables env fuel pool as = some pool₁ ∧
        addVariables env fuel pool₁ bs = some pool' := by
  rw [addVariables, List.foldlM_append]
  exact Option.bind_eq_some_iff

theorem addVariables_singleton {pool pool' : VariablePool} {a : Assignment} :
    addVariables env fuel pool [a] = some pool' ↔ addVariable env fuel pool a = some pool' := by
  simp [addVariables]

theorem libWords_of_effect {pool : VariablePool} {a : Assignment} {e : Effect}
    (h : effect env fuel pool a = some e) : libWords [.assign e] = ifLibraries words a := by
  unfold effect at h
  unfold ifLibraries isLibraries
  split_ifs at h with h1 h2 h3
  · obtain ⟨u, -, rfl⟩ := Option.map_eq_some_iff.mp h
    rw [h1, if_neg (by decide)]
    rfl
  · obtain rfl := Option.some.inj h
    rw [h2, if_neg (by decide)]
    rfl
  · obtain rfl := Option.some.inj h
    rw [if_pos (by simpa using h3)]
    simp [libWords]
  · obtain rfl := Option.some.inj h
    rw [if_neg (by simpa using h3)]
    rfl

/-- **What is read is the list of the assignments**: they make up the variables, and their
library lines the words of the events. -/
theorem Reader.readAll_assignments {r r' : Reader} {lines : List Str} {es : List Event}
    (h : r.readAll env fuel lines = some (r', es)) :
    addVariables env fuel r.pool (assignments r.inDefine lines) = some r'.pool ∧
      libWords es = (assignments r.inDefine lines).flatMap (ifLibraries words) ∧
      ∀ more, assignments r.inDefine (lines ++ more) =
        assignments r.inDefine lines ++ assignments r'.inDefine more := by
  induction lines generalizing r es with
  | nil =>
      obtain ⟨rfl, rfl⟩ := Prod.mk.inj (Option.some.inj h)
      exact ⟨rfl, rfl, fun _ => rfl⟩
  | cons line lines ih =>
      obtain ⟨r₁, es₁, es₂, h₁, h₂, rfl⟩ := Reader.of_readAll_cons h
      obtain ⟨hpool, hwords, hmore⟩ := ih h₂
      -- the first line is no assignment, or one that is carried out
      suffices hline : ∃ as, r₁.inDefine = (if isEndef line then false else isDefine line || r.inDefine) ∧
          (if r₁.inDefine then [] else (assignment line).toList) = as ∧
          addVariables env fuel r.pool as = some r₁.pool ∧
          libWords es₁ = as.flatMap (ifLibraries words) by
        obtain ⟨as, hdefine, has, hadd, hlibs⟩ := hline
        have hcons : ∀ ls, assignments r.inDefine (line :: ls) = as ++ assignments r₁.inDefine ls := by
          intro ls
          rw [assignments, ← hdefine, has]
        refine ⟨?_, ?_, fun more => ?_⟩
        · rw [hcons]
          exact addVariables_append.mpr ⟨_, hadd, hpool⟩
        · rw [hcons, libWords_append, hlibs, hwords, List.flatMap_append]
        · rw [List.cons_append, hcons, hcons, hmore, List.append_assoc]
      unfold Reader.read at h₁
      by_cases hd : (if isEndef line then false else isDefine line || r.inDefine) = true
      · simp only [hd, if_true] at h₁
        obtain ⟨rfl, rfl⟩ := Prod.mk.inj (Option.some.inj h₁)
        refine ⟨[], hd.symm, rfl, rfl, ?_⟩
        split_ifs <;> rfl
      · simp only [hd] at h₁
        cases ha : assignment line with
        | none =>
            rw [ha] at h₁
            obtain ⟨rfl, rfl⟩ := Prod.mk.inj (Option.some.inj h₁)
            refine ⟨[], (Bool.not_eq_true _ ▸ hd).symm, rfl, rfl, ?_⟩
            split_ifs <;> rfl
        | some a =>
            rw [ha] at h₁
            obtain ⟨pool, hadd, h₁⟩ := Option.bind_eq_some_iff.mp h₁
            obtain ⟨e, he, h₁⟩ := Option.map_eq_some_iff.mp h₁
            obtain ⟨rfl, rfl⟩ := Prod.mk.inj h₁
            refine ⟨[a], (Bool.not_eq_true _ ▸ hd).symm, rfl, addVariables_singleton.mpr hadd, ?_⟩
            · rw [libWords_append, libWords_of_effect he]
              split_ifs <;> simp [libWords]

/-- The lines can be evaluated where they stand if all assignments are `:=` or `+=`: setting the
variable has evaluated the text already. -/
theorem exists_pointWords {pool pool' : VariablePool} {as : List Assignment}
    (h : addVariables env fuel pool as = some pool')
    (hop : ∀ a ∈ as, a.op = .immediate ∨ a.op = .append) :
    ∃ ws, pointWords env fuel pool as = some ws := by
  induction as generalizing pool with
  | nil => exact ⟨[], rfl⟩
  | cons a as ih =>
      obtain ⟨pool₁, hadd, hrest⟩ := Option.bind_eq_some_iff.mp h
      obtain ⟨ws, hws⟩ := ih hrest fun b hb => hop b (.tail _ hb)
      obtain ⟨v, hv⟩ : ∃ v, evalExpression env fuel pool a.text = some v := by
        rcases hop a (.head _) with hop | hop
        · simp only [addVariable, hop] at hadd
          obtain ⟨v, hv, -⟩ := Option.map_eq_some_iff.mp hadd
          exact ⟨v, hv⟩
        · simp only [addVariable, hop] at hadd
          obtain ⟨v, hv, -⟩ := Option.map_eq_some_iff.mp hadd
          exact ⟨v, hv⟩
      rw [pointWords, hadd, Option.bind_some, hws, Option.bind_some, hv]
      split_ifs
      · exact ⟨words v ++ ws, rfl⟩
      · exact ⟨ws, rfl⟩

/-! ### Plain variables -/

/-- Every `$` of the text begins a reference to one of the variables `V`. -/
def PlainText (V : List Str) (t : Str) : Prop := RefsOnly t ∧ ∀ x ∈ refNames t, x ∈ V

instance (V : List Str) (t : Str) : Decidable (PlainText V t) :=
  inferInstanceAs (Decidable (_ ∧ _))

/-- The assignment leaves no `$` in its variable, if the variables `V` hold none: it evaluates
such a text, or takes one without a `$` as it is. -/
def PlainAssignment (V : List Str) (a : Assignment) : Prop :=
  match a.op with
  | .immediate | .append => PlainText V a.text
  | .deferred => '$' ∉ a.text
  | .conditional => True

instance (V : List Str) (a : Assignment) : Decidable (PlainAssignment V a) := by
  unfold PlainAssignment
  cases a.op <;> infer_instance

/-- The variables `V` hold no `$`. -/
def CleanVars (V : List Str) (vars : Str → Option Str) : Prop :=
  ∀ x ∈ V, ∀ v, vars x = some v → '$' ∉ v

section

variable {V : List Str} {pool pool' : VariablePool} {a : Assignment} {as : List Assignment}

theorem CleanVars.clean (h : CleanVars V pool.vars) {t : Str} (ht : PlainText V t) :
    Clean pool.vars t := fun x hx => h x (ht.2 x hx)

theorem CleanVars.set (h : CleanVars V pool.vars) {y u : Str} (hu : y ∈ V → '$' ∉ u) :
    CleanVars V (pool.set y u).vars := by
  intro x hx v hv
  by_cases e : x = y
  · subst e
    have hv' : some u = some v := by simpa [VariablePool.set] using hv
    exact Option.some.inj hv' ▸ hu hx
  · have hold : (pool.set y u).vars x = pool.vars x := Function.update_of_ne e _ _
    exact h x hx v (hold ▸ hv)

theorem CleanVars.addVariable (h : CleanVars V pool.vars)
    (ha : a.name ∈ V → PlainAssignment V a) (hadd : addVariable env fuel pool a = some pool') :
    CleanVars V pool'.vars := by
  obtain ⟨name, op, text⟩ := a
  have hvalue : ∀ v, evalExpression env fuel pool text = some v → PlainText V text → '$' ∉ v := by
    intro v hv ht
    rw [eq_substRefs_of_eval ht.1 (h.clean ht) hv]
    exact not_mem_substRefs ht.1 (h.clean ht)
  cases op with
  | immediate =>
      obtain ⟨v, hv, rfl⟩ := Option.map_eq_some_iff.mp hadd
      exact h.set fun hx => hvalue v hv (ha hx)
  | append =>
      obtain ⟨v, hv, hset⟩ := Option.map_eq_some_iff.mp hadd
      cases hold : pool.vars name with
      | none =>
          simp only [hold] at hset
          exact hset ▸ h.set fun hx => hvalue v hv (ha hx)
      | some old =>
          simp only [hold] at hset
          refine hset ▸ h.set fun hx => ?_
          have hno := h name hx old hold
          simp [hno, hvalue v hv (ha hx)]
  | deferred =>
      obtain rfl := Option.some.inj hadd
      exact h.set fun hx => ha hx
  | conditional =>
      obtain rfl := Option.some.inj hadd
      exact h

theorem CleanVars.addVariables (h : CleanVars V pool.vars)
    (has : ∀ a ∈ as, a.name ∈ V → PlainAssignment V a)
    (hadd : addVariables env fuel pool as = some pool') : CleanVars V pool'.vars := by
  induction as generalizing pool with
  | nil =>
      obtain rfl := Option.some.inj hadd
      exact h
  | cons a as ih =>
      obtain ⟨pool₁, hfirst, hrest⟩ := Option.bind_eq_some_iff.mp hadd
      exact ih (h.addVariable (has a (.head _)) hfirst) (fun b hb => has b (.tail _ hb)) hrest

end

/-! ### Variables that are set again -/

/-- The variables some assignments set; `?=` sets none. -/
def setNames (as : List Assignment) : List Str :=
  (as.filter fun a => a.op != .conditional).map fun a => a.name

/-- No variable that a library line refers to is set by the line or behind it; `later` are the
assignments behind the section. -/
def Steady (later : List Assignment) : List Assignment → Prop
  | [] => True
  | a :: as =>
      (isLibraries a = true → ∀ x ∈ refNames a.text, x ∉ setNames (a :: as ++ later)) ∧
        Steady later as

/-- A text that brings a character the words `ws` do not have. -/
def Brings (ws : List Str) (t : Str) : Prop :=
  '$' ∉ t ∧ ∃ c ∈ t, isBlank c = false ∧ ∀ w ∈ ws, c ∉ w

/-- Whatever sets a variable of a library line again brings a character of its own, so that the
words that come out cannot coincide with the words `ws`. -/
def Novel (ws : List Str) (later : List Assignment) : List Assignment → Prop
  | [] => True
  | a :: as =>
      (isLibraries a = true → ∀ b ∈ a :: as ++ later, b.op ≠ .conditional →
        b.name ∈ refNames a.text → Brings ws b.text) ∧ Novel ws later as

section

variable {V : List Str} {pool pool' final : VariablePool} {a : Assignment}
  {as later : List Assignment} {ws : List Str}

theorem mem_setNames {x : Str} :
    x ∈ setNames as ↔ ∃ a ∈ as, a.op ≠ .conditional ∧ a.name = x := by
  simp [setNames, and_assoc]

/-- A variable that is not set keeps its value. A conditional assignment counts as setting nothing,
since the pool ignores it. -/
theorem vars_addVariables {x : Str} (h : addVariables env fuel pool as = some pool')
    (hx : x ∉ setNames as) : pool'.vars x = pool.vars x := by
  induction as generalizing pool with
  | nil =>
      obtain rfl := Option.some.inj h
      rfl
  | cons a as ih =>
      obtain ⟨pool₁, hadd, hrest⟩ := Option.bind_eq_some_iff.mp h
      have htail : x ∉ setNames as := fun hmem => by
        obtain ⟨b, hb, hop⟩ := mem_setNames.mp hmem
        exact hx (mem_setNames.mpr ⟨b, .tail _ hb, hop⟩)
      rw [ih hrest htail]
      by_cases hop : a.op = .conditional
      · simp only [Adepends.addVariable, hop] at hadd
        obtain rfl := Option.some.inj hadd
        rfl
      · refine vars_addVariable hadd ?_
        rintro rfl
        exact hx (mem_setNames.mpr ⟨a, .head _, hop, rfl⟩)

/-- **Where nothing is set again, the words at the end are those where the lines stand.** By
induction over the assignments: the value of a library line with the variables in front of it
is its value with those at the end. -/
theorem pointWords_of_steady (hadd : addVariables env fuel pool as = some pool')
    (hlater : addVariables env fuel pool' later = some final) (hclean : CleanVars V pool.vars)
    (hlibs : ∀ a ∈ as, isLibraries a = true → PlainText V a.text)
    (hplain : ∀ a ∈ as, a.name ∈ V → PlainAssignment V a)
    (hws : pointWords env fuel pool as = some ws) (hsteady : Steady later as) :
    ws = as.flatMap (ifLibraries fun t => words (substRefs final.vars 0 t)) := by
  induction as generalizing pool ws with
  | nil => exact (Option.some.inj hws).symm
  | cons a as ih =>
      obtain ⟨pool₁, hfirst, hrest⟩ := Option.bind_eq_some_iff.mp hadd
      rw [pointWords, hfirst, Option.bind_some] at hws
      obtain ⟨rest, hws₁, hws⟩ := Option.bind_eq_some_iff.mp hws
      have htail := ih hrest (hclean.addVariable (hplain a (.head _)) hfirst)
        (fun b hb => hlibs b (.tail _ hb)) (fun b hb => hplain b (.tail _ hb)) hws₁ hsteady.2
      rw [List.flatMap_cons, ← htail, ifLibraries]
      split_ifs at hws ⊢ with hlib
      · obtain ⟨v, hv, rfl⟩ := Option.map_eq_some_iff.mp hws
        have ht := hlibs a (.head _) hlib
        have hall := addVariables_append.mpr ⟨pool', hadd, hlater⟩
        have hsame : ∀ x ∈ refNames a.text, pool.vars x = final.vars x := fun x hx =>
          (vars_addVariables hall (hsteady.1 hlib x hx)).symm
        rw [eq_substRefs_of_eval ht.1 (hclean.clean ht) hv, substRefs_congr hsame]
      · exact (Option.some.inj hws).symm

/-- The variable has a character that the words `ws` do not have. -/
def HasNew (ws : List Str) (vars : Str → Option Str) (x : Str) : Prop :=
  ∃ v c, vars x = some v ∧ c ∈ v ∧ isBlank c = false ∧ ∀ w ∈ ws, c ∉ w

/-- Setting a variable to a text that brings a character puts it there. Such a text has no `$`, so
all kinds of assignment keep it as it is, alone or behind the old value. -/
theorem hasNew_addVariable (hadd : addVariable env fuel pool a = some pool')
    (hop : a.op ≠ .conditional) (hbrings : Brings ws a.text) : HasNew ws pool'.vars a.name := by
  obtain ⟨name, op, text⟩ := a
  obtain ⟨hno, c, hc, hblank, hnew⟩ := hbrings
  have hvalue : ∀ v, evalExpression env fuel pool text = some v → v = text := by
    intro v hv
    have hclean : Clean pool.vars text := fun x hx => by
      rw [refNames_of_not_mem hno] at hx
      cases hx
    rw [eq_substRefs_of_eval (refsOnly_of_not_mem hno) hclean hv, substRefs_of_not_mem hno]
  cases op with
  | immediate =>
      obtain ⟨v, hv, rfl⟩ := Option.map_eq_some_iff.mp hadd
      exact ⟨v, c, Function.update_self .., hvalue v hv ▸ hc, hblank, hnew⟩
  | append =>
      obtain ⟨v, hv, hset⟩ := Option.map_eq_some_iff.mp hadd
      cases hold : pool.vars name with
      | none =>
          simp only [hold] at hset
          rw [← hset]
          exact ⟨v, c, Function.update_self .., hvalue v hv ▸ hc, hblank, hnew⟩
      | some old =>
          simp only [hold] at hset
          rw [← hset]
          have hmem : c ∈ old ++ ' ' :: v := by simp [hvalue v hv, hc]
          exact ⟨_, c, Function.update_self .., hmem, hblank, hnew⟩
  | deferred =>
      obtain rfl := Option.some.inj hadd
      exact ⟨text, c, Function.update_self .., hc, hblank, hnew⟩
  | conditional => exact absurd rfl hop

/-- The last assignment that sets the variable counts. By induction from the end: an assignment to
another variable, or a conditional one, leaves what was there. -/
theorem hasNew_addVariables {x : Str} (hadd : addVariables env fuel pool as = some pool')
    (hbrings : ∀ a ∈ as, a.op ≠ .conditional → a.name = x → Brings ws a.text)
    (hx : x ∈ setNames as) : HasNew ws pool'.vars x := by
  induction as using List.reverseRecOn generalizing pool' with
  | nil => simp [setNames] at hx
  | append_singleton as a ih =>
      obtain ⟨pool₁, hfirst, hone⟩ := addVariables_append.mp hadd
      have hlast := addVariables_singleton.mp hone
      by_cases ha : a.op ≠ .conditional ∧ a.name = x
      · obtain ⟨hop, rfl⟩ := ha
        exact hasNew_addVariable hlast hop (hbrings a (by simp) hop rfl)
      · have hx' : x ∈ setNames as := by
          obtain ⟨b, hb, hop, hname⟩ := mem_setNames.mp hx
          rcases List.mem_append.mp hb with hb | hb
          · exact mem_setNames.mpr ⟨b, hb, hop, hname⟩
          · obtain rfl := List.mem_singleton.mp hb
            exact absurd ⟨hop, hname⟩ ha
        have hsame : pool'.vars x = pool₁.vars x := by
          refine vars_addVariables hone fun hmem => ?_
          obtain ⟨b, hb, hop, hname⟩ := mem_setNames.mp hmem
          obtain rfl := List.mem_singleton.mp hb
          exact ha ⟨hop, hname⟩
        obtain ⟨v, c, hv, hc⟩ := ih hfirst
          (fun b hb => hbrings b (List.mem_append_left _ hb)) hx'
        exact ⟨v, c, hsame.trans hv, hc⟩

/-- **Where the words cannot coincide, nothing was set again.** A variable that was set again has
a character at the end that none of the words `ws` has, and with it the words at the end. -/
theorem steady_of_novel (hadd : addVariables env fuel pool as = some pool')
    (hlater : addVariables env fuel pool' later = some final)
    (hlibs : ∀ a ∈ as, isLibraries a = true → PlainText V a.text) (hnovel : Novel ws later as)
    (hperm : ∀ w ∈ as.flatMap (ifLibraries fun t => words (substRefs final.vars 0 t)), w ∈ ws) :
    Steady later as := by
  induction as generalizing pool with
  | nil => exact trivial
  | cons a as ih =>
      obtain ⟨pool₁, hfirst, hrest⟩ := Option.bind_eq_some_iff.mp hadd
      rw [List.flatMap_cons, List.forall_mem_append] at hperm
      refine ⟨fun hlib x hx hset => ?_, ih hrest (fun b hb => hlibs b (.tail _ hb)) hnovel.2 hperm.2⟩
      have hall := addVariables_append.mpr ⟨pool', hadd, hlater⟩
      obtain ⟨v, c, hv, hc, hblank, hnew⟩ := hasNew_addVariables hall
        (fun b hb hop hname => hnovel.1 hlib b hb hop (hname ▸ hx)) hset
      have hmem : c ∈ substRefs final.vars 0 a.text :=
        mem_substRefs (hlibs a (.head _) hlib).1 hx (by rw [hv]; exact hc)
      obtain ⟨w, hw, hcw⟩ := exists_mem_words hmem hblank
      exact hnew w (hperm.1 w (by rw [ifLibraries, if_pos hlib]; exact hw)) hcw

end

/-! ### The list of a module -/

namespace ModuleSection

variable {f : MkFile} {n : Str}

/-- The assignments of the section. -/
def assignments (m : ModuleSection env fuel f n) : List Assignment :=
  Adepends.assignments m.start.inDefine m.lines

/-- The assignments behind the section. -/
def later (m : ModuleSection env fuel f n) : List Assignment :=
  Adepends.assignments m.stop.inDefine m.behind

/-- Every `$` of a library line begins a reference to one of the variables `V`, and all
assignments of the makefile to these variables are plain. -/
structure Plain (m : ModuleSection env fuel f n) (V : List Str) : Prop where
  libraries : ∀ a ∈ m.assignments, isLibraries a = true → PlainText V a.text
  set : ∀ a ∈ Adepends.assignments false f.lines, a.name ∈ V → PlainAssignment V a

theorem assignments_eq (m : ModuleSection env fuel f n) : Adepends.assignments false f.lines =
    Adepends.assignments false m.before ++ (m.assignments ++ m.later) := by
  rw [m.file_eq, (Reader.readAll_assignments m.read_before).2.2,
    (Reader.readAll_assignments m.read_lines).2.2]
  rfl

theorem Plain.clean {m : ModuleSection env fuel f n} {V : List Str} (h : m.Plain V) :
    CleanVars V m.start.pool.vars := by
  have hempty : CleanVars V (VariablePool.mk f.path fun _ => none).vars := fun _ _ _ hv => by cases hv
  refine hempty.addVariables (fun a ha => h.set a ?_)
    (Reader.readAll_assignments m.read_before).1
  rw [m.assignments_eq]
  exact List.mem_append_left _ ha

theorem Plain.clean_last {m : ModuleSection env fuel f n} {V : List Str} (h : m.Plain V) :
    CleanVars V m.last.pool.vars := by
  have hmem := m.assignments_eq
  have hstop : CleanVars V m.stop.pool.vars := by
    refine h.clean.addVariables (fun a ha => h.set a ?_) (Reader.readAll_assignments m.read_lines).1
    rw [hmem]
    exact List.mem_append_right _ (List.mem_append_left _ ha)
  refine hstop.addVariables (fun a ha => h.set a ?_) (Reader.readAll_assignments m.read_behind).1
  rw [hmem]
  exact List.mem_append_right _ (List.mem_append_right _ ha)

/-- The library words with the references replaced as at the end of the makefile. -/
def endWords (m : ModuleSection env fuel f n) : List Str :=
  m.assignments.flatMap (ifLibraries fun t => words (substRefs m.last.pool.vars 0 t))

end ModuleSection

/-- **The list of the module, at the end of the makefile.** Later sections leave it alone, and the
loop at the end replaces each word by the words of its value, with the variables as they are then.
-/
theorem LastSection.list_perm {f : MkFile} {s s' : Store} {n : Str} (m : LastSection env fuel f s n)
    (hv : s.Valid) (hparse : parseMakefile env fuel f s = some s') {V : List Str}
    (hplain : m.Plain V) :
    ∃ i, s'.find n = some i ∧ (s'.list (s'.module i).depends).Perm m.endWords := by
  obtain ⟨r, es, hread, hclose⟩ := parseMakefile_eq_some.mp hparse
  obtain ⟨rfl, rfl⟩ := Prod.mk.inj (Option.some.inj (hread.symm.trans m.read_eq))
  obtain ⟨t, d, -, hkept⟩ := m.kept hv
  have hkept := hkept.run f.dir m.not_again
  rw [m.run_eq] at hclose
  obtain ⟨us, hus, hperm⟩ := hkept.closeAll (env.items_perm _) hclose
  -- the words of the list, and what becomes of them
  have hlibs : libWords m.events = m.assignments.flatMap (ifLibraries words) :=
    (Reader.readAll_assignments m.read_lines).2.1
  have hword : ∀ w ∈ libWords m.events, RefsOnly w ∧ Clean m.last.pool.vars w := by
    intro w hw
    rw [hlibs] at hw
    obtain ⟨a, ha, hw⟩ := List.mem_flatMap.mp hw
    rw [ifLibraries] at hw
    split_ifs at hw with hlib
    · have ht := hplain.libraries a ha hlib
      exact ⟨ht.1.of_mem_words hw, fun x hx =>
        hplain.clean_last.clean ht x (refNames_of_mem_words hw hx)⟩
    · cases hw
  have hend : us = m.endWords := by
    rw [hus.eq_flatMap hword, hlibs, List.flatMap_assoc, ModuleSection.endWords]
    refine List.flatMap_congr fun a _ => ?_
    unfold ifLibraries
    split_ifs
    · exact (words_substRefs a.text).symm
    · rfl
  have hsettled : ∀ u ∈ us, Settled u := by
    intro u hu
    rw [hus.eq_flatMap hword] at hu
    obtain ⟨w, hw, hu⟩ := List.mem_flatMap.mp hu
    exact settled_of_mem_substRefs (hword w hw).1 (hword w hw).2 hu
  refine ⟨t, (closeAll_find hclose n).trans hkept.find, ?_⟩
  rw [(closeAll_eq hclose).1, hkept.depends, ← hend]
  exact hperm hsettled

/-- The lines in front of the section of `m`: a variable of two words. -/
def listedBefore : List Str := ["X := a b".toList, "include $(CLEAR_VARS)".toList]

/-- The section of `m`, with two library lines that refer to the variable. -/
def listedLines : List Str :=
  ["LOCAL_MODULE := m".toList, "LOCAL_STATIC_LIBRARIES := $(X) c".toList,
    "LOCAL_SHARED_LIBRARIES += d$(X)".toList]

/-- A section of another module, which sets another variable. -/
def listedBehind : List Str :=
  ["include $(CLEAR_VARS)".toList, "Y := e".toList, "LOCAL_MODULE := k".toList]

/-- A makefile with these lines. -/
def listed : MkFile := ⟨"p/Android.mk".toList, listedBefore ++ (listedLines ++ listedBehind)⟩

/-- The variable is set. -/
def listedPool : VariablePool :=
  VariablePool.set ⟨"p/Android.mk".toList, fun _ => none⟩ ['X'] "a b".toList

theorem read_listedBefore :
    Reader.readAll Env.bare 9 ⟨⟨"p/Android.mk".toList, fun _ => none⟩, false⟩ listedBefore =
      some (⟨listedPool, false⟩, [.assign .other, .clear]) := rfl

theorem isSome_listedLines :
    (Reader.readAll Env.bare 9 ⟨listedPool, false⟩ listedLines).isSome = true := by decide

/-- The reader and the events where the section ends. -/
def listedStop : Reader × List Event :=
  (Reader.readAll Env.bare 9 ⟨listedPool, false⟩ listedLines).get isSome_listedLines

theorem events_listedStop : listedStop.2 = [.assign (.name "m".toList),
    .assign (.libs "$(X) c".toList), .assign (.libs "d$(X)".toList)] := by decide

theorem isSome_listedBehind : (listedStop.1.readAll Env.bare 9 listedBehind).isSome = true := by
  decide

/-- The reader and the events where the makefile ends. -/
def listedLast : Reader × List Event :=
  (listedStop.1.readAll Env.bare 9 listedBehind).get isSome_listedBehind

theorem events_listedLast : listedLast.2 =
    [.clear, .assign .other, .assign (.name "k".toList)] := by decide

/-- The section of `m`. -/
def listedSection : LastSection Env.bare 9 listed Store.empty "m".toList where
  before := listedBefore
  lines := listedLines
  behind := listedBehind
  file_eq := rfl
  before_clear l h := by
    obtain rfl := Option.some.inj h
    decide
  lines_open := by
    simp only [listedLines, List.forall_mem_cons]
    decide
  behind_clear l h := by
    obtain rfl := Option.some.inj h
    decide
  start := ⟨listedPool, false⟩
  stop := listedStop.1
  last := listedLast.1
  beforeEvents := [.assign .other, .clear]
  events := listedStop.2
  behindEvents := listedLast.2
  read_before := read_listedBefore
  read_lines := (Option.some_get isSome_listedLines).symm
  read_behind := (Option.some_get isSome_listedBehind).symm
  named := by
    rw [events_listedStop]
    decide
  not_again := by
    simp only [ModuleSection.store, events_listedStop, events_listedLast]
    decide

-- a call is cut into words before it is evaluated
example : (parseMakefile Env.bare 9 ⟨"p/Android.mk".toList, ["LOCAL_MODULE := m".toList,
    "LOCAL_STATIC_LIBRARIES := $(addprefix lib, a b)".toList]⟩ Store.empty).map
      (fun s => s.list (s.module 0).depends) =
    some ["$(addprefix".toList, "lib,".toList, "a".toList, "b)".toList] := by decide

end BlogStuff.Adepends
