import Mathlib.Data.List.Forall2

/-!
# Library — Recursion

Computations that may call the function they are part of, as data: what is called is seen before any
call is made.  Such a computation is run with a handler for its calls, which may fail and may keep a
state (`Rec.exec`), or read against a relation that says how calls are answered (`Rec.Results`).
A function whose bodies are such computations computes what its bodies give (`Computes`).

The calls reached from a call are seen as well (`Reaches`), also where the call never ends.  A call
is `Safe` when a condition on calls holds of all it reaches; `Returns` says that a safe call ends,
and how, and `Ends` says so of a computation.
-/

namespace VSharp.Library
open List
variable {ι ο σ α β : Type}

/-- A computation of an `α` that calls a function from `ι` to `ο`. -/
inductive Rec (ι ο α : Type) where
  | ret (a : α)
  | fail
  | call (i : ι) (next : ο → Rec ι ο α)

namespace Rec
variable {a' : α} {f : α → Rec ι ο β} {h : ι → σ → Option (ο × σ)} {Inv : σ → Prop} {s : σ}
  {n m : ℕ} {o' : ο}

def bind : Rec ι ο α → (α → Rec ι ο β) → Rec ι ο β
  | ret a, f => f a
  | fail, _ => fail
  | call i next, f => call i fun o => (next o).bind f

instance : Monad (Rec ι ο) where
  pure := ret
  bind := bind

theorem bind_ret : (p : Rec ι ο α) → p.bind ret = p
  | ret _ | fail => rfl
  | call i next => congrArg (call i) (funext fun o => bind_ret (next o))

theorem bind_assoc {γ : Type} (f : α → Rec ι ο β) (g : β → Rec ι ο γ) : (p : Rec ι ο α) →
    (p.bind f).bind g = p.bind fun a => (f a).bind g
  | ret _ | fail => rfl
  | call i next => congrArg (call i) (funext fun o => bind_assoc f g (next o))

instance : LawfulMonad (Rec ι ο) :=
  .mk' _ bind_ret (fun _ _ => rfl) fun p f g => bind_assoc f g p

/-! ### Results -/

/-- A result of a computation whose calls are answered as `R` says. -/
def Results (R : ι → ο → Prop) : Rec ι ο α → α → Prop
  | ret a, b => b = a
  | fail, _ => False
  | call i next, b => ∃ o, R i o ∧ (next o).Results R b

variable {R S : ι → ο → Prop} {p : Rec ι ο α} {a : α} {b : β} {i : ι} {o : ο}

@[simp] theorem results_pure : (pure a' : Rec ι ο α).Results R a ↔ a = a' := Iff.rfl

@[simp] theorem results_fail : (fail : Rec ι ο α).Results R a ↔ False := Iff.rfl

@[simp] theorem results_call : (call i ret : Rec ι ο ο).Results R o ↔ R i o := by
  simp [Results]

@[simp] theorem results_bind :
    (p >>= f).Results R b ↔ ∃ a, p.Results R a ∧ (f a).Results R b := by
  show (p.bind f).Results R b ↔ _
  induction p with
  | ret a => simp [bind, Results]
  | fail => simp [bind, Results]
  | call i next ih =>
    simp only [bind, Results, ih]
    constructor
    · rintro ⟨o, hR, a, hp, hf⟩
      exact ⟨a, ⟨o, hR, hp⟩, hf⟩
    · rintro ⟨a, ⟨o, hR, hp⟩, hf⟩
      exact ⟨o, hR, a, hp, hf⟩

@[simp] theorem results_map {f : α → β} :
    (f <$> p).Results R b ↔ ∃ a, p.Results R a ∧ f a = b := by
  rw [map_eq_pure_bind, results_bind]
  exact exists_congr fun a => and_congr_right fun _ => results_pure.trans eq_comm

theorem Results.mono (hRS : ∀ i o, R i o → S i o) (h : p.Results R a) : p.Results S a := by
  induction p with
  | ret => exact h
  | fail => exact h
  | call i next ih =>
    obtain ⟨o, hR, hp⟩ := h
    exact ⟨o, hRS i o hR, ih o hp⟩

/-- Calls with at most one answer give at most one result. -/
theorem Results.unique (hR : ∀ i o o', R i o → S i o' → o = o') (h : p.Results R a)
    (h' : p.Results S a') : a = a' := by
  induction p with
  | ret => exact h.trans h'.symm
  | fail => exact h.elim
  | call i next ih =>
    obtain ⟨o, ho, hp⟩ := h
    obtain ⟨o', ho', hp'⟩ := h'
    cases hR i o o' ho ho'
    exact ih o hp hp'

/-! ### Calls -/

/-- A call made by a computation whose calls are answered as `R` says. -/
def Calls (R : ι → ο → Prop) : Rec ι ο α → ι → Prop
  | ret _, _ | fail, _ => False
  | call i next, j => j = i ∨ ∃ o, R i o ∧ (next o).Calls R j

theorem calls_bind :
    (p >>= f).Calls R i ↔ p.Calls R i ∨ ∃ a, p.Results R a ∧ (f a).Calls R i := by
  show (p.bind f).Calls R i ↔ _
  induction p with
  | ret a => simp [bind, Calls, Results]
  | fail => simp [bind, Calls, Results]
  | call j next ih =>
    simp only [bind, Calls, Results, ih]
    constructor
    · rintro (rfl | ⟨o, hR, hnext | ⟨a, ha, hf⟩⟩)
      · exact .inl (.inl rfl)
      · exact .inl (.inr ⟨o, hR, hnext⟩)
      · exact .inr ⟨a, ⟨o, hR, ha⟩, hf⟩
    · rintro ((rfl | ⟨o, hR, hnext⟩) | ⟨a, ⟨o, hR, ha⟩, hf⟩)
      · exact .inl rfl
      · exact .inr ⟨o, hR, .inl hnext⟩
      · exact .inr ⟨o, hR, .inr ⟨a, ha, hf⟩⟩

/-! ### Running with a state -/

/-- Run a computation, its calls being handled by `h`. -/
def exec (h : ι → σ → Option (ο × σ)) : Rec ι ο α → σ → Option (α × σ)
  | ret a, s => some (a, s)
  | fail, _ => none
  | call i next, s => (h i s).bind fun r => (next r.1).exec h r.2

/-- A handler that answers as `R` says, from states in which `Inv` holds. -/
def Answers (h : ι → σ → Option (ο × σ)) (R : ι → ο → Prop) (Inv : σ → Prop) : Prop :=
  ∀ i s o s', Inv s → h i s = some (o, s') → R i o ∧ Inv s'

theorem results_of_exec (hh : Answers h R Inv) {s' : σ} (hs : Inv s)
    (hp : p.exec h s = some (a, s')) : p.Results R a ∧ Inv s' := by
  induction p generalizing s with
  | ret a' =>
    obtain ⟨rfl, rfl⟩ : a' = a ∧ s = s' := by simpa [exec] using hp
    exact ⟨rfl, hs⟩
  | fail => cases hp
  | call i next ih =>
    obtain ⟨⟨o, s₁⟩, ho, hnext⟩ := Option.bind_eq_some_iff.mp hp
    obtain ⟨hR, hs₁⟩ := hh i s o s₁ hs ho
    obtain ⟨hres, hs'⟩ := ih o hs₁ hnext
    exact ⟨⟨o, hR, hres⟩, hs'⟩

/-- A handler that gives every answer of `R`, from states in which `Inv` holds. -/
def AnswersAll (h : ι → σ → Option (ο × σ)) (R : ι → ο → Prop) (Inv : σ → Prop) : Prop :=
  ∀ i s o, Inv s → R i o → ∃ s', h i s = some (o, s') ∧ Inv s'

theorem exec_of_results (hh : AnswersAll h R Inv) (hs : Inv s) (hp : p.Results R a) :
    ∃ s', p.exec h s = some (a, s') ∧ Inv s' := by
  induction p generalizing s with
  | ret a' =>
    cases hp
    exact ⟨s, rfl, hs⟩
  | fail => exact hp.elim
  | call i next ih =>
    obtain ⟨o, hR, hnext⟩ := hp
    obtain ⟨s₁, ho, hs₁⟩ := hh i s o hs hR
    obtain ⟨s', hs', hinv⟩ := ih o hs₁ hnext
    exact ⟨s', Option.bind_eq_some_iff.mpr ⟨(o, s₁), ho, hs'⟩, hinv⟩

/-! ### Recursive functions -/

variable (body : ι → Rec ι ο ο)

/-- `o` is computed at `i` with fewer than `n` nested calls. -/
def ComputesIn : ℕ → ι → ο → Prop
  | 0, _, _ => False
  | n + 1, i, o => (body i).Results (ComputesIn n) o

/-- `o` is computed at `i`. -/
def Computes (i : ι) (o : ο) : Prop := ∃ n, ComputesIn body n i o

variable {body}

theorem ComputesIn.succ {n : ℕ} (h : ComputesIn body n i o) : ComputesIn body (n + 1) i o := by
  induction n generalizing i o with
  | zero => exact h.elim
  | succ n ih => exact Results.mono (fun _ _ => ih) h

theorem ComputesIn.mono (hnm : n ≤ m) (h : ComputesIn body n i o) :
    ComputesIn body m i o := by
  induction hnm with
  | refl => exact h
  | step _ ih => exact ih.succ

theorem ComputesIn.unique (h : ComputesIn body n i o) (h' : ComputesIn body m i o') : o = o' := by
  induction n generalizing m i o o' with
  | zero => exact h.elim
  | succ n ih =>
    cases m with
    | zero => exact h'.elim
    | succ m => exact Results.unique (R := ComputesIn body n) (fun _ _ _ => ih) h h'

theorem Computes.unique (h : Computes body i o) (h' : Computes body i o') : o = o' := by
  obtain ⟨n, hn⟩ := h
  obtain ⟨m, hm⟩ := h'
  exact hn.unique hm

/-- Finitely many calls have a common bound. -/
theorem exists_results_computesIn (h : p.Results (Computes body) a) :
    ∃ n, p.Results (ComputesIn body n) a := by
  induction p with
  | ret => exact ⟨0, h⟩
  | fail => exact h.elim
  | call i next ih =>
    obtain ⟨o, ⟨n, hn⟩, hp⟩ := h
    obtain ⟨m, hm⟩ := ih o hp
    refine ⟨max n m, o, hn.mono (Nat.le_max_left n m), ?_⟩
    exact hm.mono fun _ _ => ComputesIn.mono (Nat.le_max_right n m)

theorem computes_iff : Computes body i o ↔ (body i).Results (Computes body) o := by
  constructor
  · rintro ⟨n, hn⟩
    cases n with
    | zero => exact hn.elim
    | succ n => exact Results.mono (fun _ _ h => ⟨n, h⟩) hn
  · intro h
    obtain ⟨n, hn⟩ := exists_results_computesIn h
    exact ⟨n + 1, hn⟩

/-- What is computed at `i` with fewer than `n` nested calls. -/
def run (body : ι → Rec ι ο ο) : ℕ → ι → Option ο
  | 0, _ => none
  | n + 1, i => ((body i).exec (fun j _ => (run body n j).map (·, ())) ()).map Prod.fst

/-- What holds of a call when it holds of the calls its body makes holds of every call. -/
theorem Computes.induct {P : ι → ο → Prop}
    (step : ∀ i o, (body i).Results (fun i o => Computes body i o ∧ P i o) o → P i o)
    (h : Computes body i o) : P i o := by
  obtain ⟨n, hn⟩ := h
  induction n generalizing i o with
  | zero => exact hn.elim
  | succ n ih => exact step i o (Results.mono (fun _ _ h => ⟨⟨n, h⟩, ih h⟩) hn)

/-! ### Calls that end -/

/-- `j` is `i`, or it is called at `i` or by what is called there. -/
inductive Reaches (body : ι → Rec ι ο ο) : ι → ι → Prop
  | refl (i : ι) : Reaches body i i
  | call {i j k : ι} (hcall : (body i).Calls (Computes body) j) (h : Reaches body j k) :
      Reaches body i k

/-- All that is called is `ok`. -/
def Safe (body : ι → Rec ι ο ο) (ok : ι → Prop) (i : ι) : Prop := ∀ j, Reaches body i j → ok j

theorem safe_iff {ok : ι → Prop} :
    Safe body ok i ↔ ok i ∧ ∀ j, (body i).Calls (Computes body) j → Safe body ok j := by
  constructor
  · exact fun h => ⟨h i (.refl i), fun j hj k hk => h k (.call hj hk)⟩
  · rintro ⟨hok, hcalls⟩ k hk
    cases hk with
    | refl => exact hok
    | call hj hk => exact hcalls _ hj k hk

/-- If all that is called is `ok`, then the call ends, in a result as `Q` says. -/
def Returns (body : ι → Rec ι ο ο) (ok : ι → Prop) (i : ι) (Q : ο → Prop) : Prop :=
  Safe body ok i → ∃ o, Computes body i o ∧ Q o

/-- If the calls of a computation are safe, then it ends, in a result as `Q` says. -/
def Ends (body : ι → Rec ι ο ο) (ok : ι → Prop) (p : Rec ι ο α) (Q : α → Prop) : Prop :=
  (∀ i, p.Calls (Computes body) i → Safe body ok i) → ∃ a, p.Results (Computes body) a ∧ Q a

variable {ok : ι → Prop} {Q Q' : α → Prop} {O : ο → Prop}

theorem Returns.of_body (h : ok i → Ends body ok (body i) O) : Returns body ok i O := fun hsafe => by
  obtain ⟨hok, hcalls⟩ := safe_iff.mp hsafe
  obtain ⟨o, ho, hO⟩ := h hok hcalls
  exact ⟨o, computes_iff.mpr ho, hO⟩

namespace Ends
variable {f : α → Rec ι ο β} {l : List α}

theorem ret (h : Q a) : Ends body ok (.ret a) Q := fun _ => ⟨a, rfl, h⟩

theorem mono (h : Ends body ok p Q) (hQ : ∀ a, Q a → Q' a) : Ends body ok p Q' := fun hcalls => by
  obtain ⟨a, ha, hQa⟩ := h hcalls
  exact ⟨a, ha, hQ a hQa⟩

/-- What a computation ends in is a result of it. -/
theorem results (h : Ends body ok p Q) :
    Ends body ok p fun a => p.Results (Computes body) a ∧ Q a := fun hcalls => by
  obtain ⟨a, ha, hQa⟩ := h hcalls
  exact ⟨a, ha, ha, hQa⟩

theorem call {next : ο → Rec ι ο α} (h : Returns body ok i O)
    (hnext : ∀ o, O o → Ends body ok (next o) Q) : Ends body ok (.call i next) Q := fun hcalls => by
  obtain ⟨o, ho, hO⟩ := h (hcalls i (.inl rfl))
  obtain ⟨a, ha, hQ⟩ := hnext o hO fun j hj => hcalls j (.inr ⟨o, ho, hj⟩)
  exact ⟨a, ⟨o, ho, ha⟩, hQ⟩

theorem bind {B : β → Prop} (h : Ends body ok p Q) (hf : ∀ a, Q a → Ends body ok (f a) B) :
    Ends body ok (p >>= f) B := fun hcalls => by
  obtain ⟨a, ha, hQ⟩ := h fun j hj => hcalls j (calls_bind.mpr (.inl hj))
  obtain ⟨b, hb, hB⟩ := hf a hQ fun j hj => hcalls j (calls_bind.mpr (.inr ⟨a, ha, hj⟩))
  exact ⟨b, results_bind.mpr ⟨a, ha, hb⟩, hB⟩

theorem map {f : α → β} (h : Ends body ok p Q) :
    Ends body ok (f <$> p) fun b => ∃ a, b = f a ∧ Q a := by
  rw [map_eq_pure_bind]
  exact h.bind fun a ha => .ret ⟨a, rfl, ha⟩

/-- The turns of a fold keep an invariant of the elements done so far. -/
theorem foldlM {f : β → α → Rec ι ο β} {I : List α → β → Prop}
    (h : ∀ (done : List α) (b : β), ∀ a ∈ l, I done b →
      Ends body ok (f b a) fun b' => I (done ++ [a]) b') {d : List α} {b : β} (hb : I d b) :
    Ends body ok (l.foldlM f b) fun b' => I (d ++ l) b' := by
  induction l generalizing d b with
  | nil => exact .ret (by rwa [append_nil])
  | cons a l ih =>
    rw [foldlM_cons]
    refine (h d b a mem_cons_self hb).bind fun b' hb' => ?_
    have hrest := ih (fun done b a ha => h done b a (mem_cons_of_mem _ ha)) hb'
    exact hrest.mono fun _ hI => by rwa [append_assoc] at hI

theorem mapM {B : α → β → Prop} (h : ∀ a ∈ l, Ends body ok (f a) (B a)) :
    Ends body ok (l.mapM f) fun bs => List.Forall₂ B l bs := by
  induction l with
  | nil => exact .ret .nil
  | cons a l ih =>
    rw [mapM_cons]
    refine (h a mem_cons_self).bind fun b hb => ?_
    refine (ih fun a ha => h a (mem_cons_of_mem _ ha)).bind fun bs hbs => ?_
    exact .ret (.cons hb hbs)

end Ends

end Rec

end VSharp.Library
