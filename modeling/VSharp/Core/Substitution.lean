import VSharp.Core.Merging

/-!
# Core — Substitution

`VSharp.SILI.Core/Substitution.fs`: terms are put for the constants of a term, which is rebuilt by
the smart constructors.  What these do is a parameter (`Builders`); where each returns a term with
the value of the operation it builds, so does the substitution (`substitute_eval`).
-/

namespace VSharp
open Term Library List

/-- The constructors that `substitute` rebuilds terms with. -/
structure Builders where
  simplifyOperation : OperationType → List Term → Except Failure Term
  primitiveCast : Term → Ty → Except Failure Term
  standardFunction : List Term → StandardFunction → Except Failure Term
  combine : List Term → Ty → Except Failure Term
  createSlice : Term → List (Term × Term × Term × Bool) → Except Failure Term
  merge : IteType → Except Failure Term

namespace Substitution
variable [HashOrder FieldId] (B : Builders) (termSubst : Term → Term) (typeSubst : Ty → Ty)
  (timeSubst : VectorTime → VectorTime)

/-- `&&&`, which is what `simplifyOperation` does with `LogicalAnd` and two truth values. -/
def conj (x y : Term) : Except Failure Term := B.simplifyOperation .logicalAnd [x, y]

/-- `ctor` of `substituteK`: the operation rebuilt, unless its arguments are unchanged. -/
def ctor (op : Operation) (args : List Term) (t : Ty) (args' : List Term) : Except Failure Term :=
  if args = args' then .ok (.expression op args t)
  else
    match op with
    | .operator op => do B.primitiveCast (← B.simplifyOperation op args') (typeSubst t)
    | .cast _ targetType =>
      match args' with
      | arg :: _ => B.primitiveCast arg (typeSubst targetType)
      | [] => .error (.internal "The input list was empty.")
    | .application f => B.standardFunction args' f
    | .combine => B.combine args' (typeSubst t)

/-- The guarded results of an operation, merged. -/
def mergeGvs : List (Term × Term) → Except Failure Term
  | [(_, v)] => B.merge ⟨[], v⟩
  | gvs => do
      let (branches, elseValue) ← fromGvs gvs
      B.merge ⟨branches, elseValue⟩

/-- An array type whose element type is substituted. -/
def substArrayType (t : ArrayType) : ArrayType := { t with elemType := typeSubst t.elemType }

mutual

/-- `substituteK`. -/
def substitute : Term → Except Failure Term
  | .expression op args t => do
      let factors ← substituteMany args
      let gvs ← Merging.guardedCartesianProduct (conj B) factors (ctor B typeSubst op args t)
      mergeGvs B gvs
  | .ite branches elseValue => do
      let branches' ← substituteBranches branches
      let elseValue' ← substitute elseValue
      if branches = branches' ∧ elseValue = elseValue' then .ok (.ite branches elseValue)
      else B.merge ⟨branches', elseValue'⟩
  | .heapRef address t => do .ok (.heapRef (← substitute address) (typeSubst t))
  | .struct contents t => do
      let contents' ← substituteContents contents
      .ok (.struct (PersistentDict.ofSeq contents') (typeSubst t))
  | .concrete (.address addr) .address => .ok (concreteHeapAddress (timeSubst addr))
  | .ref address => do .ok (.ref (← substituteAddress address))
  | .ptr address t shift => do
      let address' ← substitutePointerBase address
      .ok (.ptr address' (typeSubst t) (← substitute shift))
  | .slice part slices => do
      let slices' ← substituteSlices slices
      B.createSlice (← substitute part) slices'
  | .nop => .ok (termSubst .nop)
  | .concrete obj t => .ok (termSubst (.concrete obj t))
  | .constant c t => .ok (termSubst (.constant c t))
termination_by structural t => t

/-- The arguments of an operation, as `substituteManyK` maps them: with their guards apart. -/
def substituteMany : List Term → Except Failure (List IteType)
  | [] => .ok []
  | x :: xs => do
      let x' ← substitute x
      .ok (Merging.unguard x' :: (← substituteMany xs))
termination_by structural xs => xs

/-- The branches of a union, without those whose guard becomes false. -/
def substituteBranches : List (Term × Term) → Except Failure (List (Term × Term))
  | [] => .ok []
  | (g, v) :: bs => do
      let g' ← substitute g
      let ggs ← B.merge (Merging.unguard g')
      if isFalse ggs then substituteBranches bs
      else do
        let v' ← substitute v
        .ok ((ggs, v') :: (← substituteBranches bs))
termination_by structural bs => bs

def substituteContents : List (FieldId × Term) → Except Failure (List (FieldId × Term))
  | [] => .ok []
  | (key, value) :: fs => do
      let value' ← substitute value
      .ok ((key, value') :: (← substituteContents fs))
termination_by structural fs => fs

def substituteSlices : List (Term × Term × Term × Bool) →
    Except Failure (List (Term × Term × Term × Bool))
  | [] => .ok []
  | (s, e, pos, isWrite) :: cs => do
      let s' ← substitute s
      let e' ← substitute e
      let pos' ← substitute pos
      .ok ((s', e', pos', isWrite) :: (← substituteSlices cs))
termination_by structural cs => cs

def substituteList : List Term → Except Failure (List Term)
  | [] => .ok []
  | x :: xs => do
      let x' ← substitute x
      .ok (x' :: (← substituteList xs))
termination_by structural xs => xs

def substituteAddress : Address Term → Except Failure (Address Term)
  | .primitiveStackLocation key => .ok (.primitiveStackLocation key)
  | .classField addr field => do .ok (.classField (← substitute addr) field)
  | .arrayIndex addr index t => do
      let addr' ← substitute addr
      .ok (.arrayIndex addr' (← substituteList index) (substArrayType typeSubst t))
  | .structField addr field => do .ok (.structField (← substituteAddress addr) field)
  | .staticField t field => .ok (.staticField (typeSubst t) field)
  | .arrayLength addr dim t => do
      let addr' ← substitute addr
      .ok (.arrayLength addr' (← substitute dim) (substArrayType typeSubst t))
  | .boxedLocation addr t => do .ok (.boxedLocation (← substitute addr) (typeSubst t))
  | .stackBufferIndex key index => do .ok (.stackBufferIndex key (← substitute index))
  | .arrayLowerBound addr dim t => do
      let addr' ← substitute addr
      .ok (.arrayLowerBound addr' (← substitute dim) (substArrayType typeSubst t))
termination_by structural a => a

def substitutePointerBase : PointerBase Term → Except Failure (PointerBase Term)
  | .heapLocation loc t => do .ok (.heapLocation (← substitute loc) (typeSubst t))
  | .staticLocation loc => .ok (.staticLocation (typeSubst loc))
  | .stackLocation key => .ok (.stackLocation key)
termination_by structural b => b

end

/-! ### The substitution lemma -/

end Substitution

/-- Each constructor returns a term with the value of the operation it builds. -/
structure Builders.Sound (B : Builders) {V : Type} (I : Interp V) : Prop where
  simplifyOperation : ∀ op args, ∃ r, B.simplifyOperation op args = .ok r ∧
    r.eval I = I.operatorValue op (args.map (eval I))
  primitiveCast : ∀ x t, ∃ r, B.primitiveCast x t = .ok r ∧ r.eval I = I.cast t (x.eval I)
  standardFunction : ∀ args f, ∃ r, B.standardFunction args f = .ok r ∧
    r.eval I = I.application f (args.map (eval I))
  combine : ∀ args t, ∃ r, B.combine args t = .ok r ∧ r.eval I = I.combine (args.map (eval I)) t
  createSlice : ∀ part slices, ∃ r, B.createSlice part slices = .ok r ∧
    r.eval I = I.slice (part.eval I) (evalCuts I slices)
  merge : ∀ ite, ∃ r, B.merge ite = .ok r ∧ r.eval I = (Term.ite ite.branches ite.elseValue).eval I

/-- A substitution on constants that puts truth values for boolean constants. -/
structure Substitutes {V : Type} (I : Interp V) (s : Term → Term) : Prop where
  other : ∀ t, (∀ c ty, t ≠ .constant c ty) → s t = t
  bool : ∀ c, I.ofBool ((s (.constant c .bool)).holds I) = (s (.constant c .bool)).eval I

/-- The valuation that maps each constant to the value of what is put for it. -/
def Interp.under {V : Type} (I : Interp V) (s : Term → Term) (hs : Substitutes I s) : Interp V :=
  { I with
    constant := fun c t => (s (.constant c t)).eval I
    constant_bool := hs.bool }

namespace Substitution

section
variable [HashOrder FieldId] {B : Builders} {V : Type} {I : Interp V} {s : Term → Term}
  (hB : B.Sound I) (hs : Substitutes I s)

include hB

section

omit [HashOrder FieldId]

theorem conj_spec (x y : Term) :
    ∃ r, conj B x y = .ok r ∧ r.holds I = (x.holds I && y.holds I) := by
  obtain ⟨r, h₁, h₂⟩ := hB.simplifyOperation .logicalAnd [x, y]
  refine ⟨r, h₁, ?_⟩
  rw [holds, h₂, Interp.operatorValue, I.truth_ofBool]
  simp [holds]

theorem ctor_spec (op : Operation) (args : List Term) (t : Ty) {args' : List Term}
    (hlen : args'.length = args.length) :
    ∃ r, ctor B id op args t args' = .ok r ∧ r.eval I = I.operation op (args'.map (eval I)) t := by
  unfold ctor
  split
  · next h =>
      subst h
      exact ⟨_, rfl, by rw [eval, evalList_eq]⟩
  next hne =>
  cases op with
  | operator op =>
    obtain ⟨r, h₁, h₂⟩ := hB.simplifyOperation op args'
    obtain ⟨r', h₃, h₄⟩ := hB.primitiveCast r t
    refine ⟨r', ?_, by rw [h₄, h₂]; rfl⟩
    dsimp only
    rw [bind_ok h₁]
    exact h₃
  | cast src dst =>
    cases args' with
    | nil => exact absurd (eq_nil_of_length_eq_zero hlen.symm) hne
    | cons arg args' => exact hB.primitiveCast arg dst
  | application f => exact hB.standardFunction args' f
  | combine => exact hB.combine args' t

theorem mergeGvs_spec (gvs : List (Term × Term)) (g v : Term) :
    ∃ r, mergeGvs B (gvs ++ [(g, v)]) = .ok r ∧ r.eval I = (ite gvs v).eval I := by
  cases gvs with
  | nil => exact hB.merge ⟨[], v⟩
  | cons b gvs =>
    obtain ⟨r, h₁, h₂⟩ := hB.merge ⟨b :: gvs, v⟩
    refine ⟨r, ?_, h₂⟩
    have hgvs : fromGvs (b :: gvs ++ [(g, v)]) = .ok (b :: gvs, v) := by
      rw [fromGvs, if_neg (by simp), getLast?_concat, dropLast_concat]
    have hmany : mergeGvs B (b :: gvs ++ [(g, v)]) =
        fromGvs (b :: gvs ++ [(g, v)]) >>= fun ite => B.merge ⟨ite.1, ite.2⟩ := by
      cases gvs <;> rfl
    rw [hmany, bind_ok hgvs]
    exact h₁

end

set_option linter.unusedSectionVars false in
mutual

theorem substitute_spec : ∀ t : Term,
    ∃ r, substitute B s id id t = .ok r ∧ r.eval I = t.eval (I.under s hs)
  | .nop => ⟨_, rfl, by rw [hs.other _ (by simp)]; rfl⟩
  | .concrete o t => by
      have hkeep : substitute B s id id (.concrete o t) = .ok (.concrete o t) := by
        have hother : (.ok (s (.concrete o t)) : Except Failure Term) = .ok (.concrete o t) := by
          rw [hs.other _ (by simp)]
        cases o with
        | address a => cases t <;> first | rfl | exact hother
        | _ => exact hother
      exact ⟨_, hkeep, rfl⟩
  | .constant c t => ⟨_, rfl, rfl⟩
  | .expression op args t => by
      obtain ⟨factors, h₁, hlen, hvals⟩ := substituteMany_spec args
      have hctor (ys : List Term) (hys : ys.length = args.length) :
          ∃ r, ctor B id op args t ys = .ok r := by
        obtain ⟨r, h, -⟩ := ctor_spec hB op args t hys
        exact ⟨r, h⟩
      obtain ⟨gvs, g, r, h₂, -, hst⟩ := Merging.guardedCartesianProductRec_spec (conj_spec hB) hctor
        trueTerm [] factors (by simpa using hlen)
      obtain ⟨res, h₃, h₄⟩ := mergeGvs_spec hB gvs g r
      have hchosen : (factors.map (Merging.chosen I)).length = args.length := by simpa using hlen
      obtain ⟨r', h₅, h₆⟩ := ctor_spec hB op args t hchosen
      refine ⟨res, ?_, ?_⟩
      · rw [substitute, bind_ok h₁, Merging.guardedCartesianProduct, bind_ok h₂, h₃]
      · have hr : r' = Merging.chosen I ⟨gvs, r⟩ :=
          Except.ok.inj (h₅.symm.trans hst.ok_chosen)
        rw [h₄, ← Merging.eval_chosen, ← hr, h₆, hvals]
        rfl
  | .ite branches e => by
      obtain ⟨branches', h₁, hbs⟩ := substituteBranches_spec branches
      obtain ⟨e', h₂, he⟩ := substitute_spec e
      rw [substitute, bind_ok h₁, bind_ok h₂]
      split
      · next h =>
          obtain ⟨rfl, rfl⟩ := h
          exact ⟨_, rfl, hbs e e he⟩
      · obtain ⟨r, h₃, h₄⟩ := hB.merge ⟨branches', e'⟩
        exact ⟨r, h₃, h₄.trans (hbs e e' he)⟩
  | .heapRef a t => by
      obtain ⟨a', h₁, h₂⟩ := substitute_spec a
      exact ⟨_, by rw [substitute, bind_ok h₁], by rw [eval, h₂]; rfl⟩
  | .struct fs t => by
      obtain ⟨fs', h₁, h₂⟩ := substituteContents_spec fs
      refine ⟨_, by rw [substitute, bind_ok h₁], ?_⟩
      have hfields : PersistentDict.tryFind (evalFields I (PersistentDict.ofSeq fs')).reverse =
          PersistentDict.tryFind (evalFields (I.under s hs) fs).reverse := by
        funext f
        rw [tryFind_evalFields, PersistentDict.tryFind_ofSeq_reverse, ← tryFind_evalFields, h₂]
      rw [eval, hfields]
      rfl
  | .ref a => by
      obtain ⟨a', h₁, h₂⟩ := substituteAddress_spec a
      exact ⟨_, by rw [substitute, bind_ok h₁], by rw [eval, h₂]; rfl⟩
  | .ptr b t shift => by
      obtain ⟨b', h₁, h₂⟩ := substitutePointerBase_spec b
      obtain ⟨shift', h₃, h₄⟩ := substitute_spec shift
      exact ⟨_, by rw [substitute, bind_ok h₁, bind_ok h₃], by rw [eval, h₂, h₄]; rfl⟩
  | .slice part cs => by
      obtain ⟨cs', h₁, h₂⟩ := substituteSlices_spec cs
      obtain ⟨part', h₃, h₄⟩ := substitute_spec part
      obtain ⟨r, h₅, h₆⟩ := hB.createSlice part' cs'
      exact ⟨r, by rw [substitute, bind_ok h₁, bind_ok h₃, h₅], by rw [h₆, h₂, h₄]; rfl⟩
termination_by structural t => t

theorem substituteMany_spec : ∀ xs : List Term,
    ∃ rs, substituteMany B s id id xs = .ok rs ∧ rs.length = xs.length ∧
      (rs.map (Merging.chosen I)).map (eval I) = evalList (I.under s hs) xs
  | [] => ⟨[], rfl, rfl, rfl⟩
  | x :: xs => by
      obtain ⟨r, h₁, h₂⟩ := substitute_spec x
      obtain ⟨rs, h₃, hlen, h₄⟩ := substituteMany_spec xs
      refine ⟨_, by rw [substituteMany, bind_ok h₁, bind_ok h₃], by simp [hlen], ?_⟩
      rw [map_cons, map_cons, Merging.eval_chosen_unguard, h₂, h₄]
      rfl
termination_by structural xs => xs

theorem substituteBranches_spec : ∀ bs : List (Term × Term),
    ∃ rs, substituteBranches B s id id bs = .ok rs ∧
      ∀ e e' : Term, e'.eval I = e.eval (I.under s hs) →
        (ite rs e').eval I = (ite bs e).eval (I.under s hs)
  | [] => ⟨[], rfl, fun e e' h => h⟩
  | (g, v) :: bs => by
      obtain ⟨g', h₁, h₂⟩ := substitute_spec g
      obtain ⟨ggs, h₃, h₄⟩ := hB.merge (Merging.unguard g')
      obtain ⟨v', h₅, h₆⟩ := substitute_spec v
      obtain ⟨rs, h₇, h₈⟩ := substituteBranches_spec bs
      have hguard : ggs.holds I = g.holds (I.under s hs) := by
        rw [holds, h₄, Merging.eval_unguard, h₂]
        rfl
      rw [substituteBranches, bind_ok h₁, bind_ok h₃]
      split
      · next hf =>
          refine ⟨rs, h₇, fun e e' he => ?_⟩
          rw [isFalse_iff.mp hf, holds_falseTerm] at hguard
          rw [eval_ite_cons, ← hguard, h₈ e e' he]
          rfl
      · refine ⟨_, by rw [bind_ok h₅, bind_ok h₇], fun e e' he => ?_⟩
        rw [eval_ite_cons, eval_ite_cons, hguard, h₆, h₈ e e' he]
termination_by structural bs => bs

theorem substituteContents_spec : ∀ fs : List (FieldId × Term),
    ∃ rs, substituteContents B s id id fs = .ok rs ∧ evalFields I rs = evalFields (I.under s hs) fs
  | [] => ⟨[], rfl, rfl⟩
  | (f, v) :: fs => by
      obtain ⟨v', h₁, h₂⟩ := substitute_spec v
      obtain ⟨rs, h₃, h₄⟩ := substituteContents_spec fs
      exact ⟨_, by rw [substituteContents, bind_ok h₁, bind_ok h₃], by rw [evalFields, h₂, h₄]; rfl⟩
termination_by structural fs => fs

theorem substituteSlices_spec : ∀ cs : List (Term × Term × Term × Bool),
    ∃ rs, substituteSlices B s id id cs = .ok rs ∧ evalCuts I rs = evalCuts (I.under s hs) cs
  | [] => ⟨[], rfl, rfl⟩
  | (b, e, p, w) :: cs => by
      obtain ⟨b', h₁, h₂⟩ := substitute_spec b
      obtain ⟨e', h₃, h₄⟩ := substitute_spec e
      obtain ⟨p', h₅, h₆⟩ := substitute_spec p
      obtain ⟨rs, h₇, h₈⟩ := substituteSlices_spec cs
      refine ⟨_, by rw [substituteSlices, bind_ok h₁, bind_ok h₃, bind_ok h₅, bind_ok h₇], ?_⟩
      rw [evalCuts, h₂, h₄, h₆, h₈]
      rfl
termination_by structural cs => cs

theorem substituteList_spec : ∀ xs : List Term,
    ∃ rs, substituteList B s id id xs = .ok rs ∧ evalList I rs = evalList (I.under s hs) xs
  | [] => ⟨[], rfl, rfl⟩
  | x :: xs => by
      obtain ⟨r, h₁, h₂⟩ := substitute_spec x
      obtain ⟨rs, h₃, h₄⟩ := substituteList_spec xs
      exact ⟨_, by rw [substituteList, bind_ok h₁, bind_ok h₃], by rw [evalList, h₂, h₄]; rfl⟩
termination_by structural xs => xs

theorem substituteAddress_spec : ∀ a : Address Term,
    ∃ r, substituteAddress B s id id a = .ok r ∧ evalAddress I r = evalAddress (I.under s hs) a
  | .primitiveStackLocation key => ⟨_, rfl, rfl⟩
  | .classField a fld => by
      obtain ⟨a', h₁, h₂⟩ := substitute_spec a
      exact ⟨_, by rw [substituteAddress, bind_ok h₁], by rw [evalAddress, h₂]; rfl⟩
  | .arrayIndex a is t => by
      obtain ⟨a', h₁, h₂⟩ := substitute_spec a
      obtain ⟨is', h₃, h₄⟩ := substituteList_spec is
      exact ⟨_, by rw [substituteAddress, bind_ok h₁, bind_ok h₃], by rw [evalAddress, h₂, h₄]; rfl⟩
  | .structField a fld => by
      obtain ⟨a', h₁, h₂⟩ := substituteAddress_spec a
      exact ⟨_, by rw [substituteAddress, bind_ok h₁], by rw [evalAddress, h₂]; rfl⟩
  | .staticField t fld => ⟨_, rfl, rfl⟩
  | .arrayLength a d t => by
      obtain ⟨a', h₁, h₂⟩ := substitute_spec a
      obtain ⟨d', h₃, h₄⟩ := substitute_spec d
      exact ⟨_, by rw [substituteAddress, bind_ok h₁, bind_ok h₃], by rw [evalAddress, h₂, h₄]; rfl⟩
  | .boxedLocation a t => by
      obtain ⟨a', h₁, h₂⟩ := substitute_spec a
      exact ⟨_, by rw [substituteAddress, bind_ok h₁], by rw [evalAddress, h₂]; rfl⟩
  | .stackBufferIndex key i => by
      obtain ⟨i', h₁, h₂⟩ := substitute_spec i
      exact ⟨_, by rw [substituteAddress, bind_ok h₁], by rw [evalAddress, h₂]; rfl⟩
  | .arrayLowerBound a d t => by
      obtain ⟨a', h₁, h₂⟩ := substitute_spec a
      obtain ⟨d', h₃, h₄⟩ := substitute_spec d
      exact ⟨_, by rw [substituteAddress, bind_ok h₁, bind_ok h₃], by rw [evalAddress, h₂, h₄]; rfl⟩
termination_by structural a => a

theorem substitutePointerBase_spec : ∀ b : PointerBase Term,
    ∃ r, substitutePointerBase B s id id b = .ok r ∧ evalBase I r = evalBase (I.under s hs) b
  | .heapLocation a t => by
      obtain ⟨a', h₁, h₂⟩ := substitute_spec a
      exact ⟨_, by rw [substitutePointerBase, bind_ok h₁], by rw [evalBase, h₂]; rfl⟩
  | .staticLocation t => ⟨_, rfl, rfl⟩
  | .stackLocation key => ⟨_, rfl, rfl⟩
termination_by structural b => b

end

/-- The value of a term after a substitution is its value under the valuation that maps each
constant to the value of what is put for it. -/
theorem substitute_eval (t : Term) :
    ∃ r, substitute B s id id t = .ok r ∧ r.eval I = t.eval (I.under s hs) :=
  substitute_spec hB hs t

end

end Substitution

/-- Builders that put terms together and leave out operands that are `True`. -/
def plainBuilders : Builders where
  simplifyOperation op args :=
    match op, args with
    | .logicalAnd, [x, y] =>
      .ok (if isTrue x then y else if isTrue y then x else
        .expression (.operator .logicalAnd) [x, y] .bool)
    | op, args => .ok (.expression (.operator op) args .bool)
  primitiveCast x _ := .ok x
  standardFunction args f := .ok (.expression (.application f) args .bool)
  combine args t := .ok (.expression .combine args t)
  createSlice part slices := .ok (.slice part slices)
  merge ite := .ok (if ite.branches = [] then ite.elseValue else .ite ite.branches ite.elseValue)

theorem plainBuilders_sound (ρ : ℕ → Bool) : plainBuilders.Sound (Interp.bools ρ) where
  simplifyOperation op args := by
    have plain (op : OperationType) (args : List Term) :
        ∃ r, (.ok (.expression (.operator op) args .bool) : Except Failure Term) = .ok r ∧
          r.eval (Interp.bools ρ) =
            (Interp.bools ρ).operatorValue op (args.map (eval (Interp.bools ρ))) :=
      ⟨_, rfl, by rw [eval, evalList_eq]; rfl⟩
    dsimp only [plainBuilders]
    split
    · next x y =>
        have hand : (Interp.bools ρ).operatorValue .logicalAnd ([x, y].map (eval (Interp.bools ρ))) =
            (x.eval (Interp.bools ρ) && y.eval (Interp.bools ρ)) := by
          simp [Interp.operatorValue, Interp.bools]
        have htrue : trueTerm.eval (Interp.bools ρ) = true := rfl
        split
        · next hx => exact ⟨y, rfl, by rw [hand, isTrue_iff.mp hx, htrue, Bool.true_and]⟩
        · split
          · next hy => exact ⟨x, rfl, by rw [hand, isTrue_iff.mp hy, htrue, Bool.and_true]⟩
          · exact plain _ _
    · exact plain _ _
  primitiveCast x t := ⟨x, rfl, rfl⟩
  standardFunction args f := ⟨_, rfl, by rw [eval, evalList_eq]; rfl⟩
  combine args t := ⟨_, rfl, by rw [eval, evalList_eq]; rfl⟩
  createSlice part slices := ⟨_, rfl, rfl⟩
  merge ite := by
    refine ⟨_, rfl, ?_⟩
    split
    · next h => rw [h, eval_ite_nil]
    · rfl

namespace Substitution

/-- `c₂` put for `c₀` in a conjunction. -/
theorem substitute_eval_conjunction : letI : HashOrder FieldId := ⟨fun _ => 0⟩
    let s (t : Term) : Term := if t = boolConstant 0 then boolConstant 2 else t
    let t : Term := .expression (.operator .logicalAnd) [boolConstant 0, boolConstant 1] .bool
    ∃ hs : Substitutes (Interp.bools fun _ => true) s,
      ∃ r, substitute plainBuilders s id id t = .ok r ∧
        r.eval (Interp.bools fun _ => true) = t.eval ((Interp.bools fun _ => true).under s hs) := by
  intro s t
  let _ : HashOrder FieldId := ⟨fun _ => 0⟩
  have hs : Substitutes (Interp.bools fun _ => true) s :=
    ⟨fun t ht => if_neg (ht _ _), fun c => rfl⟩
  exact ⟨hs, substitute_eval (plainBuilders_sound _) hs t⟩

end Substitution

end VSharp
