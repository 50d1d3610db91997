import BlogStuff.Graph.Acyclic
import BlogStuff.Python.ByteStr

/-!
# BlogStuff.Make.Variables

The variables of GNU make. A variable is deferred (its text is expanded when it is used)
or immediate (its text was expanded when it was set and is used as it is). `Expands`
expands a text: a reference `$(n)`, `${n}` or `$c` gives the value of the variable it
names, and nothing if there is none. `Step` is one assignment, `Run` a makefile that
consists of assignments.

Texts with function calls, substitution references, computed names or `$$` are not
texts of this language (`Text`), so nothing is said about them here.

`expands_of_acyclic` is the rule for termination: where no deferred variable refers back
to itself, every text has an expansion.
-/

namespace BlogStuff.Make

open BlogStuff.Python

/-- How a variable is used: expanded then, or as it is. -/
inductive Flavor
  | deferred
  | immediate
  deriving DecidableEq

/-- A variable. -/
structure Var where
  flavor : Flavor
  text : Str
  deriving DecidableEq

/-- The variables set so far. -/
abbrev State := Str → Option Var

/-- The assignment operators `=`, `:=`, `+=` and `?=`. -/
inductive Op
  | deferred
  | immediate
  | append
  | conditional
  deriving DecidableEq

/-- An assignment. -/
structure Assignment where
  name : Str
  op : Op
  text : Str
  deriving DecidableEq

/-- A character of a name between brackets. -/
def isNameChar (c : Char) : Bool :=
  !isBlank c && !(c == '$' || c == '(' || c == ')' || c == '{' || c == '}' || c == ':' ||
    c == '#' || c == '=')

/-- A character that is a name behind a `$`. -/
def isSingle (c : Char) : Bool := !isBlank c && !(c == '$' || c == '(' || c == '{')

/-- A text begins with a reference to a name, and goes on with a rest. -/
inductive Ref : Str → Str → Str → Prop
  | paren {n : Str} (s : Str) (hn : ∀ c ∈ n, isNameChar c = true) :
      Ref ('$' :: '(' :: (n ++ ')' :: s)) n s
  | brace {n : Str} (s : Str) (hn : ∀ c ∈ n, isNameChar c = true) :
      Ref ('$' :: '{' :: (n ++ '}' :: s)) n s
  | single {c : Char} (s : Str) (hc : isSingle c = true) : Ref ('$' :: c :: s) [c] s

/-- A text expands to a value. What an undefined variable stands for is empty, an immediate one
stands for its text, and the text of a deferred one is expanded in turn. -/
inductive Expands (g : State) : Str → Str → Prop
  | nil : Expands g [] []
  | char {c : Char} {s v : Str} (hc : c ≠ '$') (h : Expands g s v) : Expands g (c :: s) (c :: v)
  | undefined {t n s v : Str} (hr : Ref t n s) (hn : g n = none) (h : Expands g s v) :
      Expands g t v
  | immediate {t n s u v : Str} (hr : Ref t n s) (hn : g n = some ⟨.immediate, u⟩)
      (h : Expands g s v) : Expands g t (u ++ v)
  | deferred {t n s b u v : Str} (hr : Ref t n s) (hn : g n = some ⟨.deferred, b⟩)
      (hb : Expands g b u) (h : Expands g s v) : Expands g t (u ++ v)

/-- The value of a variable. -/
def Value (g : State) (x v : Str) : Prop := Expands g ('$' :: '(' :: (x ++ [')'])) v

/-- The state with one variable set. -/
def State.set (g : State) (x : Str) (f : Flavor) (t : Str) : State :=
  Function.update g x (some ⟨f, t⟩)

/-- One assignment. `+=` puts one space before the new text and keeps the flavour of the
variable, which is deferred if it is new. -/
inductive Step (g : State) : Assignment → State → Prop
  | deferred (x t : Str) : Step g ⟨x, .deferred, t⟩ (g.set x .deferred t)
  | immediate {x t v : Str} (h : Expands g t v) :
      Step g ⟨x, .immediate, t⟩ (g.set x .immediate v)
  | appendNew {x : Str} (t : Str) (hx : g x = none) :
      Step g ⟨x, .append, t⟩ (g.set x .deferred t)
  | appendDeferred {x u : Str} (t : Str) (hx : g x = some ⟨.deferred, u⟩) :
      Step g ⟨x, .append, t⟩ (g.set x .deferred (u ++ ' ' :: t))
  | appendImmediate {x t u v : Str} (hx : g x = some ⟨.immediate, u⟩) (h : Expands g t v) :
      Step g ⟨x, .append, t⟩ (g.set x .immediate (u ++ ' ' :: v))
  | conditionalNew {x : Str} (t : Str) (hx : g x = none) :
      Step g ⟨x, .conditional, t⟩ (g.set x .deferred t)
  | conditionalOld {x : Str} (t : Str) (hx : g x ≠ none) : Step g ⟨x, .conditional, t⟩ g

/-- A makefile of assignments. -/
inductive Run : State → List Assignment → State → Prop
  | nil (g : State) : Run g [] g
  | cons {g g₁ g₂ : State} {a : Assignment} {as : List Assignment} (h : Step g a g₁)
      (hs : Run g₁ as g₂) : Run g (a :: as) g₂

/-- No variable is set. -/
def State.empty : State := fun _ => none

/-! ### Termination -/

/-- A text of the language: every `$` begins a reference. -/
inductive Text : Str → Prop
  | nil : Text []
  | char {c : Char} {s : Str} (hc : c ≠ '$') (h : Text s) : Text (c :: s)
  | ref {t n s : Str} (hr : Ref t n s) (h : Text s) : Text t

/-- The text of a deferred variable mentions another variable. -/
def Refers (g : State) (x y : Str) : Prop :=
  ∃ t a r s, g x = some ⟨.deferred, t⟩ ∧ t = a ++ r ∧ Ref r y s

/-- No deferred variable refers to itself, directly or through others. -/
def Acyclic (g : State) : Prop := ∀ x, ¬ Relation.TransGen (Refers g) x x

theorem Ref.suffix {t n s : Str} (h : Ref t n s) : ∃ a, t = a ++ s := by
  cases h with
  | @paren n s _ => exact ⟨'$' :: '(' :: (n ++ [')']), by simp⟩
  | @brace n s _ => exact ⟨'$' :: '{' :: (n ++ ['}']), by simp⟩
  | @single c s _ => exact ⟨['$', c], rfl⟩

theorem Ref.append {t n s : Str} (h : Ref t n s) (b : Str) : Ref (t ++ b) n (s ++ b) := by
  cases h with
  | @paren n s hn => simpa using Ref.paren (s ++ b) hn
  | @brace n s hn => simpa using Ref.brace (s ++ b) hn
  | @single c s hc => exact Ref.single (s ++ b) hc

theorem Ref.head {t n s : Str} (h : Ref t n s) : ∃ r, t = '$' :: r := by
  cases h with
  | paren => exact ⟨_, rfl⟩
  | brace => exact ⟨_, rfl⟩
  | single => exact ⟨_, rfl⟩

theorem not_ref_cons {c : Char} {s n r : Str} (hc : c ≠ '$') : ¬ Ref (c :: s) n r := by
  intro h
  obtain ⟨t, ht⟩ := h.head
  exact hc (List.cons.inj ht).1

/-- A text up to a character that is not in it: the first occurrence of the character is the same on
both sides, so they are cut there alike. -/
theorem append_cons_inj {d : Char} {a b s t : Str} (ha : d ∉ a) (hb : d ∉ b)
    (h : a ++ d :: s = b ++ d :: t) : a = b ∧ s = t := by
  induction a generalizing b with
  | nil =>
      cases b with
      | nil => exact ⟨rfl, (List.cons.inj h).2⟩
      | cons e b =>
          obtain ⟨rfl, -⟩ := List.cons.inj h
          simp at hb
  | cons e a ih =>
      cases b with
      | nil =>
          obtain ⟨rfl, -⟩ := List.cons.inj h
          simp at ha
      | cons f b =>
          obtain ⟨rfl, htail⟩ := List.cons.inj h
          obtain ⟨rfl, rfl⟩ := ih (fun hm => ha (.tail _ hm)) (fun hm => hb (.tail _ hm)) htail
          exact ⟨rfl, rfl⟩

/-- A text begins with one reference at most. The character behind the dollar sign decides between
the three forms, and no name has the closing bracket in it. -/
theorem Ref.unique {t n s n' s' : Str} (h : Ref t n s) (h' : Ref t n' s') : n = n' ∧ s = s' := by
  have hout : ∀ {d : Char} {m : Str}, isNameChar d = false → (∀ c ∈ m, isNameChar c = true) →
      d ∉ m := by
    intro d m hd hm hmem
    rw [hm d hmem] at hd
    cases hd
  generalize ht : t = t' at h'
  cases h with
  | @paren n s hn =>
      cases h' with
      | @paren n' s' hn' =>
          have htail := (List.cons.inj (List.cons.inj ht).2).2
          exact append_cons_inj (hout (by decide) hn) (hout (by decide) hn') htail
      | brace => exact absurd (List.cons.inj (List.cons.inj ht).2).1 (by decide)
      | single s' hc =>
          obtain ⟨rfl, -⟩ := List.cons.inj (List.cons.inj ht).2
          exact absurd hc (by decide)
  | @brace n s hn =>
      cases h' with
      | @brace n' s' hn' =>
          have htail := (List.cons.inj (List.cons.inj ht).2).2
          exact append_cons_inj (hout (by decide) hn) (hout (by decide) hn') htail
      | paren => exact absurd (List.cons.inj (List.cons.inj ht).2).1 (by decide)
      | single s' hc =>
          obtain ⟨rfl, -⟩ := List.cons.inj (List.cons.inj ht).2
          exact absurd hc (by decide)
  | @single c s hc =>
      cases h' with
      | single s' _ =>
          obtain ⟨rfl, rfl⟩ := List.cons.inj (List.cons.inj ht).2
          exact ⟨rfl, rfl⟩
      | paren =>
          obtain ⟨rfl, -⟩ := List.cons.inj (List.cons.inj ht).2
          exact absurd hc (by decide)
      | brace =>
          obtain ⟨rfl, -⟩ := List.cons.inj (List.cons.inj ht).2
          exact absurd hc (by decide)

/-- A text expands if the deferred variables it mentions do. By induction on the text: the other
references have their text at hand. -/
theorem expands_of_mentions {g : State} {t : Str} (ht : Text t)
    (h : ∀ a r n s b, t = a ++ r → Ref r n s → g n = some ⟨.deferred, b⟩ → ∃ u, Expands g b u) :
    ∃ v, Expands g t v := by
  induction ht with
  | nil => exact ⟨[], .nil⟩
  | char hc _ ih =>
      obtain ⟨v, hv⟩ := ih fun a r n s b e hr hn => h (_ :: a) r n s b (by rw [e]; rfl) hr hn
      exact ⟨_, .char hc hv⟩
  | @ref t n s hr _ ih =>
      obtain ⟨p, rfl⟩ := hr.suffix
      obtain ⟨v, hv⟩ := ih fun a r m q b e hm hb => h (p ++ a) r m q b (by simp [e]) hm hb
      cases hn : g n with
      | none => exact ⟨v, .undefined hr hn hv⟩
      | some w =>
          obtain ⟨f, b⟩ := w
          cases f with
          | immediate => exact ⟨b ++ v, .immediate hr hn hv⟩
          | deferred =>
              obtain ⟨u, hu⟩ := h [] _ n s b rfl hr hn
              exact ⟨u ++ v, .deferred hr hn hu hv⟩

/-- **Without reference cycles every text has an expansion**, by well-founded induction on the
variables that a text mentions. -/
theorem expands_of_acyclic {g : State} (hfin : {x | g x ≠ none}.Finite) (hcycle : Acyclic g)
    (htext : ∀ x b, g x = some ⟨.deferred, b⟩ → Text b) {t : Str} (ht : Text t) :
    ∃ v, Expands g t v := by
  have hedges : {x | ∃ y, Refers g x y}.Finite := by
    refine hfin.subset fun x hx => ?_
    obtain ⟨y, t, -, -, -, ht, -⟩ := hx
    simp [ht]
  have hwf := Graph.wellFounded_of_acyclic hedges hcycle
  -- what a variable mentions is below it
  have hvar : ∀ x b, g x = some ⟨.deferred, b⟩ → ∃ u, Expands g b u := by
    intro x
    induction x using hwf.induction with
    | _ x ih =>
        intro b hb
        exact expands_of_mentions (htext x b hb) fun a r n s b' e hr hn =>
          ih n ⟨b, a, r, s, hb, e, hr⟩ b' hn
  exact expands_of_mentions ht fun a r n s b _ _ hn => hvar n b hn

theorem Step.finite {g g' : State} {a : Assignment} (h : Step g a g')
    (hfin : {x | g x ≠ none}.Finite) : {x | g' x ≠ none}.Finite := by
  have hset : ∀ x f t, {y | g.set x f t y ≠ none} ⊆ insert x {y | g y ≠ none} := by
    intro x f t y hy
    by_cases e : y = x
    · exact .inl e
    · exact .inr (by simpa [State.set, Function.update_of_ne e] using hy)
  cases h with
  | conditionalOld => exact hfin
  | _ => exact (hfin.insert _).subset (hset _ _ _)

end BlogStuff.Make
