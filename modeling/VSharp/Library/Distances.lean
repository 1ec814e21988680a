import Mathlib.Data.Nat.Find

/-!
# Library — Distances

Shortest distances along a relation, and tables of distances.  A table is `Sound` when each entry is
the length of a walk; it is `Relaxed` at a point when the entries of the next points are at most one
greater.  A sound table that is relaxed wherever it has an entry holds the shortest distances.
-/

namespace VSharp.Library.Distances
variable {α : Type}

/-- `b` is reached from `a` in `n` steps of `r`. -/
inductive Walk (r : α → α → Prop) (a : α) : ℕ → α → Prop where
  | refl : Walk r a 0 a
  | snoc {n : ℕ} {b c : α} (h : Walk r a n b) (hstep : r b c) : Walk r a (n + 1) c

/-- The shortest walk from `a` to `b` has length `n`. -/
structure IsDist (r : α → α → Prop) (a b : α) (n : ℕ) : Prop where
  walk : Walk r a n b
  le : ∀ {m : ℕ}, Walk r a m b → n ≤ m

variable {r : α → α → Prop} {a b c : α} {n m : ℕ}

theorem Walk.trans (h : Walk r a n b) (h' : Walk r b m c) : Walk r a (n + m) c := by
  induction h' with
  | refl => exact h
  | snoc _ hstep ih => exact ih.snoc hstep

theorem Walk.exists_isDist (h : Walk r a n b) : ∃ d, IsDist r a b d := by
  classical
  have hex : ∃ n, Walk r a n b := ⟨n, h⟩
  exact ⟨Nat.find hex, Nat.find_spec hex, Nat.find_min' hex⟩

theorem isDist_self : IsDist r a a 0 := ⟨.refl, fun _ => Nat.zero_le _⟩

/-! ### Tables -/

/-- Each entry of the table is the length of a walk from `a`. -/
def Sound (r : α → α → Prop) (a : α) (f : α → Option ℕ) : Prop := ∀ b n, f b = some n → Walk r a n b

/-- The table has an entry for `b`, of at most `n`. -/
def Within (f : α → Option ℕ) (b : α) (n : ℕ) : Prop := ∃ m, m ≤ n ∧ f b = some m

/-- The points after `b` have entries of at most one more. -/
def Relaxed (r : α → α → Prop) (f : α → Option ℕ) (b : α) : Prop :=
  ∀ n, f b = some n → ∀ c, r b c → Within f c (n + 1)

/-- `f` has the entries of `g`, or smaller ones. -/
def Below (f g : α → Option ℕ) : Prop := ∀ b n, g b = some n → Within f b n

variable {f g h : α → Option ℕ}

theorem Within.mono (hf : Within f b n) (hle : n ≤ m) : Within f b m := by
  obtain ⟨k, hk, hfk⟩ := hf
  exact ⟨k, Nat.le_trans hk hle, hfk⟩

theorem Within.below (hg : Within g b n) (hfg : Below f g) : Within f b n := by
  obtain ⟨k, hk, hgk⟩ := hg
  exact (hfg b k hgk).mono hk

theorem Below.refl : Below f f := fun _ n hn => ⟨n, le_rfl, hn⟩

theorem Below.trans (hfg : Below f g) (hgh : Below g h) : Below f h :=
  fun b n hn => (hgh b n hn).below hfg

/-- What is relaxed stays so, if its own entry stays. -/
theorem Relaxed.below (hg : Relaxed r g b) (hfg : Below f g) (hb : f b = g b) : Relaxed r f b :=
  fun n hn c hc => (hg n (hb ▸ hn) c hc).below hfg

/-- The entries of a relaxed table are at most the lengths of the walks. -/
theorem within_of_walk (hstart : Within f a 0) (hrelaxed : ∀ b, Relaxed r f b)
    (hwalk : Walk r a n b) : Within f b n := by
  induction hwalk with
  | refl => exact hstart
  | snoc _ hstep ih =>
    obtain ⟨m, hm, hfm⟩ := ih
    exact (hrelaxed _ m hfm _ hstep).mono (Nat.add_le_add_right hm 1)

/-- A sound table that is relaxed holds the shortest distances, and nothing else. -/
theorem eq_some_iff_isDist (hsound : Sound r a f) (hstart : Within f a 0)
    (hrelaxed : ∀ b, Relaxed r f b) : f b = some n ↔ IsDist r a b n := by
  constructor
  · intro hn
    refine ⟨hsound b n hn, fun hwalk => ?_⟩
    obtain ⟨m, hm, hfm⟩ := within_of_walk hstart hrelaxed hwalk
    rwa [← Option.some.inj (hn.symm.trans hfm)] at hm
  · intro hdist
    obtain ⟨m, hm, hfm⟩ := within_of_walk hstart hrelaxed hdist.walk
    rwa [Nat.le_antisymm hm (hdist.le (hsound b m hfm))] at hfm

/-! ### Improvements -/

/-- `f'` is `f` with some of the pairs that `P` allows, and has all of them or smaller ones. -/
structure Improves (P : α → ℕ → Prop) (f f' : α → Option ℕ) : Prop where
  below : Below f' f
  within : ∀ v n, P v n → Within f' v n
  old_or_new : ∀ v, f' v = f v ∨ ∃ n, P v n ∧ f' v = some n

theorem Improves.refl {f : α → Option ℕ} : Improves (fun _ _ => False) f f :=
  ⟨.refl, fun _ _ h => h.elim, fun _ => .inl rfl⟩

theorem Improves.trans {P Q : α → ℕ → Prop} {f g h : α → Option ℕ} (hfg : Improves P f g)
    (hgh : Improves Q g h) : Improves (fun v n => P v n ∨ Q v n) f h where
  below := hgh.below.trans hfg.below
  within v n := fun hn => hn.elim (fun hP => (hfg.within v n hP).below hgh.below) (hgh.within v n)
  old_or_new v := by
    rcases hgh.old_or_new v with heq | ⟨n, hQ, hn⟩
    · rcases hfg.old_or_new v with heq' | ⟨n, hP, hn⟩
      · exact .inl (heq.trans heq')
      · exact .inr ⟨n, .inl hP, heq.trans hn⟩
    · exact .inr ⟨n, .inr hQ, hn⟩

theorem Improves.congr {P Q : α → ℕ → Prop} {f f' : α → Option ℕ} (h : Improves P f f')
    (hPQ : ∀ v n, P v n ↔ Q v n) : Improves Q f f' := by
  obtain rfl : P = Q := funext fun v => funext fun n => propext (hPQ v n)
  exact h

/-- Distances from a point that has an entry, added to it, leave the table sound. -/
theorem Sound.improves {P : α → ℕ → Prop} {f' : α → Option ℕ} (hf : Sound r a f)
    (himproves : Improves P f f') (hP : ∀ b n, P b n → Walk r a n b) : Sound r a f' := by
  intro b n hn
  rcases himproves.old_or_new b with heq | ⟨m, hm, hfm⟩
  · exact hf b n (heq ▸ hn)
  · cases hfm.symm.trans hn
    exact hP b n hm

end VSharp.Library.Distances
