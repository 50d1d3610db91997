import Mathlib.Data.List.Range
import Mathlib.Tactic

/-!
# BlogStuff.Seq.Loop

Rules for counting loops: a `for` over the numbers from `a` on is a fold over `List.range'`,
and what each round advances the loop keeps. A comprehension is a map whose entries may fail.
-/

namespace BlogStuff.Seq

variable {σ : Type}

theorem foldl_range'_from {f : σ → Nat → σ} {P : Nat → σ → Prop} {s : σ} (a n : Nat) (h0 : P a s)
    (hstep : ∀ i s, a ≤ i → i < a + n → P i s → P (i + 1) (f s i)) :
    P (a + n) ((List.range' a n).foldl f s) := by
  induction n with
  | zero => exact h0
  | succ n ih =>
      rw [List.range'_1_concat, List.foldl_append]
      exact hstep (a + n) _ (Nat.le_add_right a n) (by omega)
        (ih fun i s ha hi => hstep i s ha (by omega))

/-- The same for a loop from 1 on, with the number of rounds as the index. -/
theorem foldl_range' {f : σ → Nat → σ} {P : Nat → σ → Prop} {s : σ} (k : Nat)
    (h0 : P 0 s) (hstep : ∀ i s, i < k → P i s → P (i + 1) (f s (i + 1))) :
    P k ((List.range' 1 k).foldl f s) := by
  have hloop := foldl_range'_from (P := fun i => P (i - 1)) (f := f) 1 k h0 fun i s ha hi hi' => by
    obtain ⟨i, rfl⟩ : ∃ j, i = j + 1 := ⟨i - 1, by omega⟩
    exact hstep i s (by omega) hi'
  rwa [Nat.add_sub_cancel_left] at hloop

/-- A loop from 1 on whose rounds are defined under conditions: it is defined under all of
them, and then the loop of the exact rounds. -/
theorem foldlM_range'_iff {f : σ → Nat → Option σ} {g : σ → Nat → σ} {P : Nat → σ → Prop}
    {Q : Nat → Prop} {s s' : σ} (k : Nat) (h0 : P 0 s)
    (hstep : ∀ i s, i < k → P i s → P (i + 1) (g s (i + 1)))
    (hf : ∀ i s s', i < k → P i s → (f s (i + 1) = some s' ↔ Q i ∧ g s (i + 1) = s')) :
    (List.range' 1 k).foldlM f s = some s' ↔
      (∀ i, i < k → Q i) ∧ (List.range' 1 k).foldl g s = s' := by
  induction k generalizing s' with
  | zero => simp
  | succ k ih =>
      have hinv := foldl_range' (f := g) (P := P) k h0 fun i s hi => hstep i s (by omega)
      have hk := hf k _ s' (Nat.lt_succ_self k) hinv
      rw [List.range'_1_concat, List.foldlM_append, List.foldl_append, Option.bind_eq_bind,
        Option.bind_eq_some_iff]
      simp only [ih (fun i s hi => hstep i s (by omega)) fun i s s' hi => hf i s s' (by omega),
        List.foldlM_cons, List.foldlM_nil, bind_pure, List.foldl_cons, List.foldl_nil,
        Nat.add_comm 1 k]
      constructor
      · intro hrun
        obtain ⟨u, ⟨hall, rfl⟩, hlast⟩ := hrun
        obtain ⟨hlast, hs'⟩ := hk.mp hlast
        refine ⟨fun i hi => ?_, hs'⟩
        rcases Nat.lt_succ_iff_lt_or_eq.mp hi with hi | rfl
        · exact hall i hi
        · exact hlast
      · intro hrun
        exact ⟨_, ⟨fun i hi => hrun.1 i (by omega), rfl⟩, hk.mpr ⟨hrun.1 k (by omega), hrun.2⟩⟩

/-- A loop whose rounds are all defined, and advance an invariant. -/
theorem foldlM_range' {f : σ → Nat → Option σ} {P : Nat → σ → Prop} {s : σ} (a n : Nat)
    (h0 : P a s)
    (hstep : ∀ i s, a ≤ i → i < a + n → P i s → ∃ s', f s i = some s' ∧ P (i + 1) s') :
    ∃ s', (List.range' a n).foldlM f s = some s' ∧ P (a + n) s' := by
  induction n with
  | zero => exact ⟨s, rfl, h0⟩
  | succ n ih =>
      obtain ⟨u, hrun, hu⟩ := ih fun i s ha hi => hstep i s ha (by omega)
      obtain ⟨s', hlast, hs'⟩ := hstep (a + n) u (by omega) (by omega) hu
      refine ⟨s', ?_, hs'⟩
      rw [List.range'_1_concat, List.foldlM_append, hrun]
      simpa using hlast

/-- A loop with a round that is not defined, from any state the other rounds may have left. -/
theorem foldlM_range'_eq_none {f : σ → Nat → Option σ} {P : σ → Prop} {s : σ} {a n k : Nat}
    (h0 : P s) (hstep : ∀ i s s', P s → f s i = some s' → P s') (hak : a ≤ k) (hkn : k < a + n)
    (hnone : ∀ s, P s → f s k = none) : (List.range' a n).foldlM f s = none := by
  induction n generalizing a s with
  | zero => omega
  | succ n ih =>
      rw [List.range'_succ, List.foldlM_cons]
      rcases Nat.eq_or_lt_of_le hak with rfl | hlt
      · rw [hnone s h0]
        rfl
      · cases hround : f s a with
        | none => rfl
        | some s' => exact ih (hstep a s s' h0 hround) hlt (by omega)

theorem mapM_eq_some {α β : Type} {f : α → Option β} {g : α → β} {l : List α}
    (h : ∀ a ∈ l, f a = some (g a)) : l.mapM f = some (l.map g) := by
  induction l with
  | nil => rfl
  | cons a l ih =>
      rw [List.mapM_cons, h a List.mem_cons_self, ih fun b hb => h b (List.mem_cons_of_mem a hb)]
      rfl

end BlogStuff.Seq
