import Mathlib.Logic.Hydra
import BlogStuff.Adepends.GnuMake
import BlogStuff.Graph.Acyclic

/-!
# BlogStuff.Adepends.Termination

When `expand_var` ends. Each turn of its loop takes one `$` out of the text and puts in those of a
value, so what counts is which variable a `$` can come to name. The text up to the next `$` is all
that is sure to stay behind it; whatever a replacement may put there, the `$` can name a variable
only if some text behind that part makes it do so (`CanName`). In particular a reference may be put
together from the end of one value and the beginning of another.

The graph of what can lead to what starts at the expression. If no variable on it can lead back to
itself, the loop ends (`ends_of_not_cyclic`): every `$` is marked with the text it came from, and a
turn replaces one mark by finitely many marks further down. A cycle need not be followed, since the
right text need not come to stand behind the `$`. But if every `$` that can name a variable names
one as it stands, nothing is put together from pieces, and the loop ends only if there is no cycle
(`not_cyclic_of_ends`).
-/

namespace BlogStuff.Adepends

open BlogStuff.Python Relation

variable {vars : Str → Option Str} {e : Str}

/-! ### What a `$` can come to name -/

/-- With some text behind the part that stays, the `$` in front of `s` refers to `n`. -/
def CanName (s n : Str) : Prop :=
  ∃ b r, refAt ('$' :: (s.takeWhile (· != '$') ++ b)) = some (n, r)

/-- A `$` of the text can name `n`. -/
def CanMention (t n : Str) : Prop := ∃ a s, t = a ++ '$' :: s ∧ CanName s n

theorem canName_of_refAt {s n r : Str} (h : refAt ('$' :: s) = some (n, r)) : CanName s n := by
  refine ⟨s.dropWhile (· != '$'), r, ?_⟩
  rwa [List.takeWhile_append_dropWhile]

theorem canName_append_dollar {a s n : Str} : CanName (a ++ '$' :: s) n ↔ CanName a n := by
  have hsame : (a ++ '$' :: s).takeWhile (· != '$') = a.takeWhile (· != '$') := by
    rw [List.takeWhile_append]
    split_ifs with h
    · simpa using ((List.takeWhile_prefix _).eq_of_length h).symm
    · rfl
  rw [CanName, hsame, CanName]

/-- Text behind it can only settle what a `$` names. -/
theorem CanName.of_append {a s n : Str} (h : CanName (a ++ s) n) : CanName a n := by
  obtain ⟨b, r, h⟩ := h
  rw [List.takeWhile_append] at h
  split_ifs at h with ha
  · refine ⟨s.takeWhile (· != '$') ++ b, r, ?_⟩
    rwa [(List.takeWhile_prefix _).eq_of_length ha, ← List.append_assoc]
  · exact ⟨b, r, h⟩

/-- Where a reference stands, its name is the only one. -/
theorem CanName.eq_of_refAt {s n m r : Str} (h : CanName s m)
    (href : refAt ('$' :: s) = some (n, r)) : m = n := by
  obtain ⟨p, hp, hdollar, hname⟩ := refAt_parts href
  obtain rfl := (List.cons.inj hp).2
  obtain ⟨b, q, h⟩ := h
  rw [List.takeWhile_append_of_pos (bne_of_not_mem hdollar), List.append_assoc] at h
  exact hname _ m q h

theorem CanMention.of_append {a b n : Str} (h : CanMention (a ++ b) n) :
    CanMention a n ∨ CanMention b n := by
  obtain ⟨c, s, hab, hn⟩ := h
  rcases List.append_eq_append_iff.mp hab with ⟨c', rfl, hb⟩ | ⟨a', rfl, hs⟩
  · exact .inr ⟨c', s, hb, hn⟩
  · cases a' with
    | nil => exact .inr ⟨[], s, hs.symm, hn⟩
    | cons d a' =>
        obtain ⟨rfl, rfl⟩ := List.cons.inj hs
        exact .inl ⟨c, a', rfl, hn.of_append⟩

theorem CanMention.append_left {b n : Str} (h : CanMention b n) (a : Str) :
    CanMention (a ++ b) n := by
  obtain ⟨c, s, rfl, hn⟩ := h
  exact ⟨a ++ c, s, by simp, hn⟩

theorem not_canMention_of_not_mem {t n : Str} (h : '$' ∉ t) : ¬ CanMention t n := by
  intro hmention
  obtain ⟨a, s, rfl, -⟩ := hmention
  simp at h

/-- A text that begins with a reference mentions its name, and what stands behind it. -/
theorem CanMention.of_ref {s n m r : Str} (h : CanMention ('$' :: s) m)
    (href : refAt ('$' :: s) = some (n, r)) : m = n ∨ CanMention r m := by
  obtain ⟨a, w, haw, hm⟩ := h
  cases a with
  | nil =>
      obtain rfl := (List.cons.inj haw).2
      exact .inl (hm.eq_of_refAt href)
  | cons c a =>
      obtain ⟨p, hp, hdollar, -⟩ := refAt_parts href
      obtain rfl := (List.cons.inj hp).2
      have hmention : CanMention (p ++ r) m := ⟨a, w, (List.cons.inj haw).2, hm⟩
      exact .inr (hmention.of_append.resolve_left (not_canMention_of_not_mem hdollar))

/-! ### The graph -/

/-- The text of the expression (`none`) or of a variable. -/
def source (vars : Str → Option Str) (e : Str) : Option Str → Option Str
  | none => some e
  | some n => vars n

/-- Replacing references in the text of `x` can come to the variable `y`. -/
def LeadsTo (vars : Str → Option Str) (e : Str) (x y : Option Str) : Prop :=
  ∃ v n, source vars e x = some v ∧ CanMention v n ∧ y = some n

/-- The expression can lead to a variable that can lead to itself. -/
def Cyclic (vars : Str → Option Str) (e : Str) : Prop :=
  ∃ x, ReflTransGen (LeadsTo vars e) none x ∧ TransGen (LeadsTo vars e) x x

/-- `expand_var` ends. -/
def Ends (vars : Str → Option Str) (e : Str) : Prop := ∃ fuel, (expandVar vars fuel e).isSome

theorem leadsTo_of_value {n m : Str} (h : CanMention ((vars n).getD []) m) :
    LeadsTo vars e (some n) (some m) := by
  cases hv : vars n with
  | none =>
      rw [hv] at h
      exact absurd h (not_canMention_of_not_mem (by simp))
  | some v =>
      rw [hv] at h
      exact ⟨v, m, hv, h, rfl⟩

/-- The edges on the way from the expression. -/
def Onward (vars : Str → Option Str) (e : Str) (x y : Option Str) : Prop :=
  ReflTransGen (LeadsTo vars e) none x ∧ LeadsTo vars e x y

theorem finite_onward (hfin : {n | vars n ≠ none}.Finite) :
    {x | ∃ y, Onward vars e x y}.Finite := by
  refine ((hfin.image some).insert none).subset fun x hx => ?_
  obtain ⟨y, -, v, n, hv, -⟩ := hx
  cases x with
  | none => exact .inl rfl
  | some m =>
      have hm : vars m = some v := hv
      exact .inr ⟨m, by simp [hm], rfl⟩

theorem onward_wellFounded (hfin : {n | vars n ≠ none}.Finite) (h : ¬ Cyclic vars e) :
    WellFounded fun y x => Onward vars e x y := by
  refine Graph.wellFounded_of_acyclic (finite_onward hfin) fun x hx => h ⟨x, ?_, ?_⟩
  · obtain ⟨y, hxy, -⟩ := TransGen.head'_iff.mp hx
    exact hxy.1
  · have hle : Onward vars e ≤ LeadsTo vars e := fun _ _ hxy => hxy.2
    exact TransGen.mono hle _ _ hx

/-! ### Marks -/

/-- Every `$` of the text has a mark, the text it came from, and can name only what that text
leads to. -/
inductive Marked (vars : Str → Option Str) (e : Str) : List (Option Str) → Str → Prop
  | nil : Marked vars e [] []
  | char {c : Char} {s : Str} {ls : List (Option Str)} (hc : c ≠ '$') (h : Marked vars e ls s) :
      Marked vars e ls (c :: s)
  | dollar {x : Option Str} {s : Str} {ls : List (Option Str)}
      (hx : ∀ n, CanName s n → Onward vars e x (some n)) (h : Marked vars e ls s) :
      Marked vars e (x :: ls) ('$' :: s)

theorem Marked.skip {ls : List (Option Str)} {p s : Str} (hp : '$' ∉ p)
    (h : Marked vars e ls (p ++ s)) : Marked vars e ls s := by
  induction p with
  | nil => exact h
  | cons c p ih =>
      obtain ⟨hc, hp⟩ := List.ne_and_not_mem_of_not_mem_cons hp
      cases h with
      | char _ h => exact ih hp h
      | dollar => exact absurd rfl hc

/-- At a `$` a marked text can be cut, and other text put behind the front. A mark says which names
can begin at its `$`, and a name does not reach over the next `$`, so the front keeps its marks. -/
theorem Marked.split {ls : List (Option Str)} {a s : Str} (h : Marked vars e ls (a ++ '$' :: s)) :
    ∃ l₁ x l₂, ls = l₁ ++ x :: l₂ ∧ (∀ n, CanName s n → Onward vars e x (some n)) ∧
      Marked vars e l₂ s ∧
      ∀ l s', Marked vars e l s' → Marked vars e (l₁ ++ l) (a ++ s') := by
  induction a generalizing ls with
  | nil =>
      cases h with
      | char hc => exact absurd rfl hc
      | dollar hx h => exact ⟨[], _, _, rfl, hx, h, fun _ _ h' => h'⟩
  | cons c a ih =>
      cases h with
      | char hc h =>
          obtain ⟨l₁, x, l₂, rfl, hx, hs, hput⟩ := ih h
          exact ⟨l₁, x, l₂, rfl, hx, hs, fun l s' h' => .char hc (hput l s' h')⟩
      | @dollar y _ ls hy h =>
          obtain ⟨l₁, x, l₂, rfl, hx, hs, hput⟩ := ih h
          refine ⟨y :: l₁, x, l₂, rfl, hx, hs, fun l s' h' => .dollar (fun n hn => hy n ?_) ?_⟩
          · exact canName_append_dollar.mpr hn.of_append
          · exact hput l s' h'

/-- The text of `x` in front of a marked text, each `$` marked with `x`. -/
theorem Marked.paste {x : Option Str} {v s : Str} {l : List (Option Str)}
    (hv : ∀ n, CanMention v n → Onward vars e x (some n)) (h : Marked vars e l s) :
    Marked vars e (List.replicate (v.count '$') x ++ l) (v ++ s) := by
  induction v with
  | nil => exact h
  | cons c v ih =>
      have hrest := ih fun n hn => hv n (hn.append_left [c])
      by_cases hc : c = '$'
      · subst hc
        rw [List.count_cons_self, List.replicate_succ]
        exact .dollar (fun n hn => hv n ⟨[], v, rfl, hn.of_append⟩) hrest
      · rw [List.count_cons_of_ne hc]
        exact .char hc hrest

/-- One turn of the loop replaces a mark by marks of the variable it led to. These are further along
the references, so the multiset of marks goes down in the order of `CutExpand`. -/
theorem Marked.turn {ls : List (Option Str)} {t b n a : Str} (h : Marked vars e ls t)
    (hsearch : searchRef t = some (b, n, a)) :
    ∃ ls', Marked vars e ls' (b ++ (vars n).getD [] ++ a) ∧
      CutExpand (fun y x => Onward vars e x y) (ls' : Multiset (Option Str)) ls := by
  obtain ⟨t', rfl, href⟩ := of_searchRef hsearch
  obtain ⟨p, rfl, hp, -⟩ := refAt_parts href
  obtain ⟨l₁, x, l₂, rfl, hx, hs, hput⟩ := h.split
  have hxn := hx n (canName_of_refAt href)
  have hvalue : ∀ m, CanMention ((vars n).getD []) m → Onward vars e (some n) (some m) :=
    fun m hm => ⟨hxn.1.tail hxn.2, leadsTo_of_value hm⟩
  let new := List.replicate (((vars n).getD []).count '$') (some n)
  refine ⟨l₁ ++ (new ++ l₂), ?_, (new : Multiset (Option Str)), x, ?_, ?_⟩
  · rw [List.append_assoc]
    exact hput _ _ (Marked.paste hvalue (hs.skip hp))
  · intro y hy
    obtain rfl := List.eq_of_mem_replicate (Multiset.mem_coe.mp hy)
    exact hxn
  · simp only [← Multiset.coe_add, ← Multiset.cons_coe, ← Multiset.singleton_add]
    abel

/-- The loop ends on a marked text. -/
theorem Marked.ends {ls : List (Option Str)} {t : Str} (h : Marked vars e ls t)
    (hwf : WellFounded fun y x => Onward vars e x y) : Ends vars t := by
  generalize hM : (ls : Multiset (Option Str)) = M
  induction M using hwf.cutExpand.induction generalizing ls t with
  | _ M ih =>
      subst hM
      cases hsearch : searchRef t with
      | none => exact ⟨1, by rw [expandVar, hsearch]; rfl⟩
      | some p =>
          obtain ⟨b, n, a⟩ := p
          obtain ⟨ls', h', hcut⟩ := h.turn hsearch
          obtain ⟨fuel, hfuel⟩ := ih _ hcut h' rfl
          exact ⟨fuel + 1, by rwa [expandVar, hsearch]⟩

/-- **Without a cycle `expand_var` ends**, whatever the texts look like. Each `$` of the text
is marked with the variable it came from, a reference that is replaced leaves marks that are
further on, and without a cycle this cannot go on for ever. -/
theorem ends_of_not_cyclic (hfin : {n | vars n ≠ none}.Finite) (h : ¬ Cyclic vars e) :
    Ends vars e := by
  have hmarked : Marked vars e (List.replicate (e.count '$') none ++ []) (e ++ []) :=
    Marked.paste (fun n hn => ⟨.refl, e, n, rfl, hn, rfl⟩) .nil
  rw [List.append_nil, List.append_nil] at hmarked
  exact hmarked.ends (onward_wellFounded hfin h)

/-! ### Texts without pieces -/

/-- Every `$` that can name a variable refers to one as it stands. -/
def Tidy (t : Str) : Prop :=
  ∀ a s n, t = a ++ '$' :: s → CanName s n → refAt ('$' :: s) ≠ none

/-- No `$` can name a variable. -/
def Inert (t : Str) : Prop := ∀ n, ¬ CanMention t n

theorem Inert.append {a b : Str} (ha : Inert a) (hb : Inert b) : Inert (a ++ b) := by
  intro n h
  exact h.of_append.elim (ha n) (hb n)

/-- A search steps over inert text: a reference that began in it would name a variable already
there, up to where the text ends. -/
theorem Inert.searchRef_append {d : Str} (hd : Inert d) (s : Str) :
    searchRef (d ++ s) =
      (searchRef s).map fun (before, name, after) => (d ++ before, name, after) := by
  induction d with
  | nil => simp
  | cons c d ih =>
      have hhere : refAt (c :: (d ++ s)) = none := by
        by_contra hne
        obtain ⟨⟨n, r⟩, href⟩ := Option.ne_none_iff_exists'.mp hne
        obtain ⟨p, hp, -⟩ := refAt_parts href
        obtain ⟨rfl, -⟩ := List.cons.inj hp
        exact hd n ⟨[], d, rfl, (canName_of_refAt href).of_append⟩
      rw [List.cons_append, searchRef, hhere, ih fun n hn => hd n (hn.append_left [c]),
        Option.map_map]
      rfl

theorem Tidy.suffix {a t : Str} (h : Tidy (a ++ t)) : Tidy t := by
  intro b s n ht hn
  exact h (a ++ b) s n (by rw [ht, List.append_assoc]) hn

theorem Tidy.append {a b : Str} (ha : Tidy a) (hclosed : Closed a) (hb : Tidy b) :
    Tidy (a ++ b) := by
  intro c s n hab hn
  rcases List.append_eq_append_iff.mp hab with ⟨c', rfl, rfl⟩ | ⟨a', rfl, hs⟩
  · exact hb c' s n rfl hn
  · cases a' with
    | nil => exact hb [] s n hs.symm hn
    | cons d a' =>
        obtain ⟨rfl, rfl⟩ := List.cons.inj hs
        obtain ⟨⟨m, r⟩, href⟩ := Option.ne_none_iff_exists'.mp (ha c a' n rfl hn.of_append)
        have hlong := Closed.refAt_append (b := b) (.inl hclosed.suffix) href
        rw [List.cons_append] at hlong
        exact Option.ne_none_iff_exists'.mpr ⟨_, hlong⟩

theorem not_tidy_dollar (a : Str) : ¬ Tidy (a ++ ['$']) := by
  intro h
  exact h a [] ['A'] rfl ⟨"(A)".toList, [], by decide⟩ (by decide)

theorem Closed.append {a b : Str} (ha : Closed a) (htidy : Tidy a) (hb : Closed b) :
    Closed (a ++ b) := by
  intro c d hd hab
  rcases List.append_eq_append_iff.mp hab with ⟨c', rfl, rfl⟩ | ⟨a', rfl, hs⟩
  · exact hb c' d hd rfl
  · -- the reference begins in the first text
    rcases a' with _ | ⟨d₁, _ | ⟨d₂, a'⟩⟩
    · exact hb [] d hd hs.symm
    · obtain ⟨rfl, -⟩ := List.cons.inj hs
      exact not_tidy_dollar c htidy
    · obtain ⟨rfl, htail⟩ := List.cons.inj hs
      obtain ⟨rfl, hnil⟩ := List.cons.inj htail
      obtain ⟨rfl, -⟩ := List.append_eq_nil_iff.mp hnil.symm
      exact ha c d hd rfl

/-- A tidy text is inert, or has a first reference, with inert text before it. By induction on the
text: a `$` that begins no name is passed over. -/
theorem Tidy.cases {t : Str} (h : Tidy t) :
    Inert t ∨ ∃ a s n r, t = a ++ '$' :: s ∧ Inert a ∧ refAt ('$' :: s) = some (n, r) := by
  induction t with
  | nil => exact .inl fun n => not_canMention_of_not_mem (by simp)
  | cons c t ih =>
      by_cases hlive : c = '$' ∧ ∃ n, CanName t n
      · obtain ⟨rfl, n, hn⟩ := hlive
        obtain ⟨⟨m, r⟩, href⟩ := Option.ne_none_iff_exists'.mp (h [] t n rfl hn)
        exact .inr ⟨[], t, m, r, rfl, fun n => not_canMention_of_not_mem (by simp), href⟩
      · -- this character does not count, in front of anything
        have hput : ∀ u, Inert u → (∀ n, CanName u n → CanName t n) → Inert (c :: u) := by
          intro u hu hle n hn
          obtain ⟨a, s, hcu, hs⟩ := hn
          cases a with
          | nil =>
              obtain ⟨rfl, rfl⟩ := List.cons.inj hcu
              exact hlive ⟨rfl, n, hle n hs⟩
          | cons d a => exact hu n ⟨a, s, (List.cons.inj hcu).2, hs⟩
        rcases ih (Tidy.suffix (a := [c]) h) with hinert | ⟨a, s, n, r, rfl, ha, href⟩
        · exact .inl (hput t hinert fun _ hn => hn)
        · exact .inr ⟨c :: a, s, n, r, rfl,
            hput a ha fun _ hn => canName_append_dollar.mpr hn, href⟩

/-- Every text the expression can lead to is tidy, and a variable's text does not end in a
single-letter reference. -/
def TidyFrom (vars : Str → Option Str) (e : Str) : Prop :=
  ∀ x v, ReflTransGen (LeadsTo vars e) none x → source vars e x = some v →
    Tidy v ∧ (x = none ∨ Closed v)

/-- The loop ends in `k` turns on the text of `x`, with something before and behind it. -/
def EndsIn (vars : Str → Option Str) (e : Str) (k : Nat) (x : Option Str) : Prop :=
  ∃ v d s, source vars e x = some v ∧ Inert d ∧ (Closed v ∨ s = []) ∧
    (expandVar vars k (d ++ (v ++ s))).isSome

section

variable (htidy : TidyFrom vars e)

include htidy

theorem TidyFrom.value {n : Str} (hn : ReflTransGen (LeadsTo vars e) none (some n)) :
    Tidy ((vars n).getD []) ∧ Closed ((vars n).getD []) := by
  cases hv : vars n with
  | none =>
      refine ⟨fun a s m h => ?_, closed_of_not_mem (by simp)⟩
      simp at h
  | some v =>
      obtain ⟨hv, hclosed⟩ := htidy (some n) v hn hv
      exact ⟨hv, hclosed.resolve_left (by simp)⟩

/-- A loop that ends on a text, with something before and behind it, ends earlier on the value
of every variable the text mentions. -/
theorem TidyFrom.mentioned {k : Nat} {d t s n v : Str} (hd : Inert d) (ht : Tidy t)
    (hs : Closed t ∨ s = [])
    (hreach : ∀ m, CanMention t m → ReflTransGen (LeadsTo vars e) none (some m))
    (h : (expandVar vars k (d ++ (t ++ s))).isSome) (hn : CanMention t n)
    (hv : vars n = some v) :
    ∃ k' < k, ∃ d' s', Inert d' ∧ (expandVar vars k' (d' ++ (v ++ s'))).isSome := by
  induction k generalizing d t with
  | zero => cases h
  | succ k ih =>
      rcases ht.cases with hinert | ⟨a, u, m, r, rfl, ha, href⟩
      · exact absurd hn (hinert n)
      · obtain ⟨p, hp, hdollar, -⟩ := refAt_parts href
        obtain rfl := (List.cons.inj hp).2
        have hm : CanMention (a ++ '$' :: (p ++ r)) m := ⟨a, p ++ r, rfl, canName_of_refAt href⟩
        -- the turn at this reference
        have hturn : (expandVar vars k ((d ++ a) ++ ((vars m).getD [] ++ (r ++ s)))).isSome := by
          have hhere := Closed.refAt_append (hs.imp_left Closed.suffix) href
          have hfirst : searchRef ('$' :: (p ++ r) ++ s) = some ([], m, r ++ s) := by
            rw [List.cons_append, searchRef, ← List.cons_append, hhere]
          have hsearch : searchRef (d ++ (a ++ '$' :: (p ++ r) ++ s)) =
              some (d ++ a, m, r ++ s) := by
            rw [List.append_assoc a, ← List.append_assoc d, (hd.append ha).searchRef_append, hfirst]
            simp
          rw [expandVar, hsearch] at h
          simpa using h
        by_cases hnm : n = m
        · subst hnm
          rw [hv, Option.getD_some] at hturn
          exact ⟨k, Nat.lt_succ_self k, d ++ a, r ++ s, hd.append ha, hturn⟩
        · -- another variable is mentioned behind the reference, and its turn comes later
          obtain ⟨hvalue, hclosed⟩ := htidy.value (hreach m hm)
          have hrest : CanMention r n :=
            ((hn.of_append.resolve_left (ha n)).of_ref href).resolve_left hnm
          have hsplit : a ++ '$' :: (p ++ r) = (a ++ '$' :: p) ++ r := by simp
          rw [hsplit] at ht hs hreach
          have hbehind : ∀ m', CanMention ((vars m).getD [] ++ r) m' →
              ReflTransGen (LeadsTo vars e) none (some m') := by
            intro m' hm'
            rcases hm'.of_append with hval | hr
            · exact (hreach m (hsplit ▸ hm)).tail (leadsTo_of_value hval)
            · exact hreach m' (hr.append_left _)
          obtain ⟨k', hk', hrun⟩ := ih (hd.append ha) (hvalue.append hclosed ht.suffix)
            (hs.imp_left fun h => hclosed.append hvalue h.suffix) hbehind
            (by simpa using hturn) (hrest.append_left _)
          exact ⟨k', hk'.trans (Nat.lt_succ_self k), hrun⟩

theorem TidyFrom.endsIn_of_leadsTo {k : Nat} {x y : Option Str}
    (hx : ReflTransGen (LeadsTo vars e) none x) (h : EndsIn vars e k x)
    (hxy : LeadsTo vars e x y) (hy : source vars e y ≠ none) : ∃ k' < k, EndsIn vars e k' y := by
  obtain ⟨v, d, s, hv, hd, hs, hrun⟩ := h
  obtain ⟨v', n, hv', hn, rfl⟩ := hxy
  obtain rfl : v = v' := Option.some.inj (hv.symm.trans hv')
  obtain ⟨w, hw⟩ := Option.ne_none_iff_exists'.mp hy
  have hreach : ∀ m, CanMention v m → ReflTransGen (LeadsTo vars e) none (some m) :=
    fun m hm => hx.tail ⟨v, m, hv, hm, rfl⟩
  obtain ⟨k', hk', d', s', hd', hrun'⟩ :=
    htidy.mentioned hd (htidy x v hx hv).1 hs hreach hrun hn hw
  have hclosed := (htidy (some n) w (hreach n hn) hw).2.resolve_left (by simp)
  exact ⟨k', hk', w, d', s', hw, hd', .inl hclosed, hrun'⟩

theorem TidyFrom.endsIn_of_transGen {k : Nat} {x y : Option Str}
    (hx : ReflTransGen (LeadsTo vars e) none x) (h : EndsIn vars e k x)
    (hxy : TransGen (LeadsTo vars e) x y) (hy : source vars e y ≠ none) :
    ∃ k' < k, EndsIn vars e k' y := by
  induction hxy with
  | single hxy => exact htidy.endsIn_of_leadsTo hx h hxy hy
  | @tail y z hxy hyz ih =>
      have hsource : source vars e y ≠ none := by
        obtain ⟨v, _, hv, -⟩ := hyz
        exact Option.ne_none_iff_exists'.mpr ⟨v, hv⟩
      obtain ⟨k₁, hk₁, h₁⟩ := ih hsource
      obtain ⟨k₂, hk₂, h₂⟩ := htidy.endsIn_of_leadsTo (hx.trans hxy.to_reflTransGen) h₁ hyz hy
      exact ⟨k₂, hk₂.trans hk₁, h₂⟩

/-- **On a cycle `expand_var` does not end**, if nothing is put together from pieces: a turn after
the variable's value was pasted the value would be there to expand again. -/
theorem TidyFrom.not_cyclic_of_ends (h : Ends vars e) : ¬ Cyclic vars e := by
  intro hcyclic
  obtain ⟨x, hx, hcycle⟩ := hcyclic
  have hsource : source vars e x ≠ none := by
    obtain ⟨y, ⟨v, _, hv, -⟩, -⟩ := TransGen.head'_iff.mp hcycle
    exact Option.ne_none_iff_exists'.mpr ⟨v, hv⟩
  have hnever : ∀ k, ¬ EndsIn vars e k x := by
    intro k
    induction k using Nat.strong_induction_on with
    | _ k ih =>
        intro hk
        obtain ⟨k', hlt, hk'⟩ := htidy.endsIn_of_transGen hx hk hcycle hsource
        exact ih k' hlt hk'
  obtain ⟨fuel, hfuel⟩ := h
  have hroot : EndsIn vars e fuel none :=
    ⟨e, [], [], rfl, fun n => not_canMention_of_not_mem (by simp), .inr rfl, by simpa using hfuel⟩
  rcases reflTransGen_iff_eq_or_transGen.mp hx with rfl | hpath
  · exact hnever fuel hroot
  · obtain ⟨k, -, hk⟩ := htidy.endsIn_of_transGen .refl hroot hpath hsource
    exact hnever k hk

end

/-! ### Makefiles -/

section

variable {env : Env} {fuel : Nat} {pool pool' : VariablePool}

theorem VariablePool.finite_set (hfin : {n | pool.vars n ≠ none}.Finite) (x t : Str) :
    {n | (pool.set x t).vars n ≠ none}.Finite := by
  refine (hfin.insert x).subset fun n hn => ?_
  by_cases hnx : n = x
  · exact .inl hnx
  · exact .inr (by simpa [VariablePool.set, Function.update_of_ne hnx] using hn)

theorem addVariable_finite {a : Make.Assignment} (hfin : {n | pool.vars n ≠ none}.Finite)
    (h : addVariable env fuel pool a = some pool') : {n | pool'.vars n ≠ none}.Finite := by
  obtain ⟨x, op, t⟩ := a
  cases op with
  | immediate =>
      obtain ⟨v, -, rfl⟩ := Option.map_eq_some_iff.mp h
      exact VariablePool.finite_set hfin x v
  | append =>
      obtain ⟨v, -, rfl⟩ := Option.map_eq_some_iff.mp h
      split
      · exact VariablePool.finite_set hfin x _
      · exact VariablePool.finite_set hfin x v
  | deferred =>
      obtain rfl := Option.some.inj h
      exact VariablePool.finite_set hfin x t
  | conditional =>
      obtain rfl := Option.some.inj h
      exact hfin

/-- Finitely many lines set finitely many variables. This is what makes the relation between
variables well founded as soon as it has no cycle. -/
theorem addLines_finite {lines : List Str} (hfin : {n | pool.vars n ≠ none}.Finite)
    (h : addLines env fuel pool lines = some pool') : {n | pool'.vars n ≠ none}.Finite := by
  induction lines generalizing pool with
  | nil =>
      obtain rfl := Option.some.inj h
      exact hfin
  | cons line lines ih =>
      rw [addLines, List.foldlM_cons] at h
      obtain ⟨pool₁, h₁, hrest⟩ := Option.bind_eq_some_iff.mp h
      refine ih ?_ hrest
      split at h₁
      · exact addVariable_finite hfin h₁
      · obtain rfl := Option.some.inj h₁
        exact hfin

end

-- a cycle that is not followed: what comes to stand behind `A`'s text makes it a reference once
example : Ends (fun n => if n == ['A'] then some "$(".toList else none) "$(A)A)".toList ∧
    Cyclic (fun n => if n == ['A'] then some "$(".toList else none) "$(A)A)".toList := by
  refine ⟨⟨3, by decide⟩, some ['A'], .single ?_, .single ?_⟩
  · exact ⟨"$(A)A)".toList, ['A'], rfl, ⟨[], "(A)A)".toList, rfl, [], "A)".toList, by decide⟩, rfl⟩
  · exact ⟨"$(".toList, ['A'], rfl, ⟨[], "(".toList, rfl, "A)".toList, [], by decide⟩, rfl⟩

end BlogStuff.Adepends
