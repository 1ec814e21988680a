import VSharp.Solver.Encoding

/-!
# Solver — Assumptions

Which assumptions `EncodeTerm` returns.  A term has encoded positions of two kinds: `elsePositions`
are the else values of its unions, `outsidePositions` are all others.  A term brings assumptions of
its own (`Introduces`): the sign of an address, the bounds of a length or of a character, the range of
an enumeration.

- The cache changes no result (`encodes_of_encodeTerm`).
- The assumptions of a term are those introduced at the positions reached from it without passing an
  else value (`mem_assumptions_iff`).
- So the assumptions of a constant are lost exactly when no position outside the else values
  introduces them (`encodeTerm_keeps_iff`).
-/

namespace VSharp.Encoding
open VSharp.Encoding.Expr Library PersistentDict List Option

/-! ### Positions -/

/-- The terms of a cut. -/
def bounds (c : Term × Term × Term × Bool) : List Term := [c.1, c.2.1, c.2.2.1]

/-- The terms of a branch that `EncodeSlice` encodes. -/
def branchPositions (b : Term × Term) : List Term :=
  b.1 :: extractTerm b.2 :: (extractCuts b.2).flatMap bounds

/-- The positions of a slice that are not in an else value. -/
def sliceOutside : Term → List Term
  | .slice term cuts => term :: cuts.flatMap bounds
  | .ite branches _ => branches.flatMap branchPositions
  | t => [t]

/-- The positions of a slice in an else value. -/
def sliceElse : Term → List Term
  | .ite _ e => extractTerm e :: (extractCuts e).flatMap bounds
  | _ => []

/-- The terms that a reading encodes. -/
def readingPositions (reading : Reading) (path : Path) : List Term :=
  reading.key ++ reading.inRegion ::
    reading.updates.flatMap fun u => [u.guard.getD Term.trueTerm, u.matchCondition, u.value path]

/-- The terms that the constant of a source encodes. -/
def sourcePositions : SourceKind → Path → List Term
  | .heapReading reading, path | .arrayIndexReading _ reading, path
  | .vectorIndexReading _ reading, path | .stackBufferReading reading, path =>
    readingPositions reading path
  | .staticsReading _ _ value, _ => value.toList
  | .structFieldSource source field, path => sourcePositions source (.structField field :: path)
  | .heapAddressSource source, path => sourcePositions source path
  | .pointerAddressSource source, path => sourcePositions source (.pointerAddress :: path)
  | .pointerOffsetSource source, path => sourcePositions source (.pointerOffset :: path)
  | .other, _ => []

/-- The positions of an expression that are not in an else value. -/
def operatorOutside : Operation → List Term → List Term
  | .operator _, args | .application _, args => args
  | .cast .., args => args.take 1
  | .combine, args => args.flatMap sliceOutside

/-- The encoded positions of a term that are not an else value. -/
def outsidePositions (defs : Definitions) : Term → List Term
  | .constant source _ => sourcePositions (defs.source source) []
  | .expression op args _ => operatorOutside op args
  | .heapRef address _ => [address]
  | .ite branches _ => branches.flatMap fun b => [b.1, b.2]
  | _ => []

/-- The encoded positions of a term that are an else value. -/
def elsePositions : Term → List Term
  | .expression .combine args _ => args.flatMap sliceElse
  | .ite _ elseValue => [elseValue]
  | _ => []

/-- `d` occurs in `t` in an encoded position. -/
def Encoded (defs : Definitions) : Term → Term → Prop :=
  Relation.ReflTransGen fun t d => d ∈ outsidePositions defs t ++ elsePositions t

/-- `d` occurs in `t` in an encoded position outside all else values. -/
def Outside (defs : Definitions) : Term → Term → Prop :=
  Relation.ReflTransGen fun t d => d ∈ outsidePositions defs t

/-! ### Own assumptions -/

/-- The terms of the key that a constant reads. -/
def sourceKey : SourceKind → List Term
  | .heapReading reading | .arrayIndexReading _ reading | .vectorIndexReading _ reading
  | .stackBufferReading reading => reading.key
  | .structFieldSource source _ | .heapAddressSource source | .pointerAddressSource source
  | .pointerOffsetSource source => sourceKey source
  | .staticsReading .. | .other => []

/-- The assumptions that the constant of a source has of its own, for the expressions of its key and
its own. -/
def sourceAssumptions (defs : Definitions) (key : List Expr) (expr : Expr) :
    SourceKind → Path → Ty → List Expr
  | .heapReading reading, path, typ =>
    heapReadingAssumptions defs reading expr ++ (selectInst reading path typ key).2
  | .arrayIndexReading hasDefaultValue reading, path, typ
  | .vectorIndexReading hasDefaultValue reading, path, typ =>
    arrayReadingAssumptions defs reading typ expr ++
      (arrayInst hasDefaultValue reading path typ key).2
  | .stackBufferReading reading, path, typ => (selectInst reading path typ key).2
  | .staticsReading .., _, _ => []
  | .structFieldSource source field, path, typ =>
    structReadingAssumptions defs field expr ++
      sourceAssumptions defs key expr source (.structField field :: path) typ
  | .heapAddressSource source, path, _ => sourceAssumptions defs key expr source path .address
  | .pointerAddressSource source, path, _ =>
    sourceAssumptions defs key expr source (.pointerAddress :: path) .address
  | .pointerOffsetSource source, path, _ =>
    sourceAssumptions defs key expr source (.pointerOffset :: path) .int32
  | .other, _, typ => constantAssumptions expr typ

/-- The key of the term, when it is a constant. -/
def keyOf (defs : Definitions) : Term → List Term
  | .constant source _ => sourceKey (defs.source source)
  | _ => []

/-- The assumptions that a term has of its own when it is a constant. -/
def constantOwn (defs : Definitions) (key : List Expr) (expr : Expr) : Term → List Expr
  | .constant source typ => sourceAssumptions defs key expr (defs.source source) [] typ
  | _ => []

/-- The assumptions of a term of its own, for the expressions of its key and its own. -/
def ownAssumptions (defs : Definitions) (t : Term) (key : List Expr) (expr : Expr) : List Expr :=
  enumAssumptions defs t expr ++ constantOwn defs key expr t

/-! ### What the functions collect -/

/-- A list holds the assumptions of `own` and those of the answers at `ds`, all of which are
answered. -/
structure Covers (R : Term → EncodingResult → Prop) (ds : List Term) (own l : List Expr) :
    Prop where
  answered : ∀ d ∈ ds, ∃ o, R d o
  mem_iff : ∀ a, a ∈ l ↔ a ∈ own ∨ ∃ d ∈ ds, ∃ o, R d o ∧ a ∈ o.assumptions

/-- Expressions that are encodings of the given terms. -/
def EncodedAs (R : Term → EncodingResult → Prop) : List Term → List Expr → Prop :=
  List.Forall₂ fun t e => ∃ o, R t o ∧ o.expr = e

section
variable {R : Term → EncodingResult → Prop} {ds ds' : List Term} {own own' l l' : List Expr}

namespace Covers

theorem nil (own : List Expr) : Covers R [] own own :=
  ⟨by simp, by simp⟩

theorem append (h : Covers R ds own l) (h' : Covers R ds' own' l') :
    Covers R (ds ++ ds') (own ++ own') (l ++ l') := by
  refine ⟨?_, fun a => ?_⟩
  · intro d hd
    exact (mem_append.mp hd).elim (h.answered d) (h'.answered d)
  · rw [mem_append, h.mem_iff, h'.mem_iff]
    simp only [mem_append, or_and_right, exists_or]
    exact or_or_or_comm

theorem congr (h : Covers R ds own l) (hds : ∀ d, d ∈ ds' ↔ d ∈ ds) (hl : ∀ a, a ∈ l' ↔ a ∈ l) :
    Covers R ds' own l' := by
  refine ⟨fun d hd => h.answered d ((hds d).mp hd), fun a => ?_⟩
  simp only [hl, h.mem_iff, hds]

/-- Assumptions added before the collected ones. -/
theorem add (h : Covers R ds own l) (extra : List Expr) : Covers R ds (extra ++ own) (extra ++ l) :=
  (nil extra).append h

end Covers

/-- Each term has one encoding. -/
def Functional (R : Term → EncodingResult → Prop) : Prop :=
  ∀ t o o', R t o → R t o' → o = o'

variable (hR : Functional R)
variable {args : List Term} {defs : Definitions} {typ : Ty} {branches : List CutsBranch}
  {parts : List (List (Term × Term × Term × Term × Bool))} {path : Path}
include hR

theorem Covers.single {d : Term} {o : EncodingResult} (h : R d o) :
    Covers R [d] [] o.assumptions := by
  refine ⟨by simpa using ⟨o, h⟩, fun a => ?_⟩
  simp only [not_mem_nil, mem_singleton, false_or, exists_eq_left]
  constructor
  · exact fun ha => ⟨o, h, ha⟩
  · rintro ⟨o', ho', ha⟩
    exact hR d o' o ho' h ▸ ha

variable {r : EncodingResult} {ts : List Term} {res : List EncodedCut} {acc : List Expr}

theorem covers_makeUnary {f : Expr → Expr} (h : (makeUnary f args).Results R r) :
    Covers R args [] r.assumptions := by
  match args, h with
  | [a], h =>
    simp only [makeUnary, Encoder.encodeTerm, Rec.results_bind, Rec.results_call,
      Rec.results_pure] at h
    obtain ⟨o, ho, rfl⟩ := h
    have hcovers := Covers.single hR ho
    exact hcovers
  | [], h | _ :: _ :: _, h => exact h.elim

theorem covers_makeBinary {f : Expr → Expr → Expr} (h : (makeBinary f args).Results R r) :
    Covers R args [] r.assumptions := by
  match args, h with
  | [a, b], h =>
    simp only [makeBinary, Encoder.encodeTerm, Rec.results_bind, Rec.results_call,
      Rec.results_pure] at h
    obtain ⟨o, ho, o', ho', rfl⟩ := h
    exact (Covers.single hR ho).append (Covers.single hR ho')
  | [], h | [_], h | _ :: _ :: _ :: _, h => exact h.elim

theorem covers_encodeTermsAfter {res : List Expr × List Expr}
    (h : (encodeTermsAfter acc ts).Results R res) (hacc : Covers R ds own acc) :
    Covers R (ds ++ ts) own res.1 ∧ EncodedAs R ts res.2 := by
  induction ts generalizing acc ds res with
  | nil =>
    simp only [encodeTermsAfter, Rec.results_pure] at h
    subst h
    exact ⟨by simpa using hacc, .nil⟩
  | cons t ts ih =>
    simp only [encodeTermsAfter, Encoder.encodeTerm, Rec.results_bind, Rec.results_call,
      Rec.results_pure] at h
    obtain ⟨o, ho, rest, hrest, rfl⟩ := h
    have hnext := hacc.append (Covers.single hR ho)
    rw [append_nil] at hnext
    obtain ⟨hcovers, hexprs⟩ := ih hrest hnext
    refine ⟨?_, .cons ⟨o, ho, rfl⟩ hexprs⟩
    simpa using hcovers

theorem covers_encodeTerms {res : List Expr × List Expr} (h : (encodeTerms ts).Results R res) :
    Covers R ts [] res.1 ∧ EncodedAs R ts res.2 := by
  simpa using covers_encodeTermsAfter hR h (Covers.nil [])

theorem covers_makeOperation {f : List Expr → Expr} (h : (makeOperation f args).Results R r) :
    Covers R args [] r.assumptions := by
  simp only [makeOperation, Rec.results_bind, Rec.results_pure] at h
  obtain ⟨res, hres, rfl⟩ := h
  exact (covers_encodeTerms hR hres).1

theorem covers_constructUnion {e : Expr} {branches : List (Term × Term)} {res : Expr × List Expr}
    (h : (constructUnion e branches).Results R res) :
    Covers R (branches.flatMap fun b => [b.1, b.2]) [] res.2 := by
  induction branches generalizing res with
  | nil =>
    simp only [constructUnion, Rec.results_pure] at h
    subst h
    exact Covers.nil []
  | cons b branches ih =>
    obtain ⟨g, v⟩ := b
    simp only [constructUnion, Encoder.encodeTerm, Rec.results_bind, Rec.results_call,
      Rec.results_pure] at h
    obtain ⟨prev, hprev, guard, hguard, value, hvalue, rfl⟩ := h
    refine (((ih hprev).append (Covers.single hR hguard)).append
      (Covers.single hR hvalue)).congr ?_ fun a => Iff.rfl
    intro d
    simp only [flatMap_cons, mem_append, mem_cons, not_mem_nil, or_false]
    tauto

theorem covers_encodeIte {branches : List (Term × Term)} {e : Term}
    (h : (encodeIte branches e).Results R r) :
    (∃ o, R e o) ∧ Covers R (branches.flatMap fun b => [b.1, b.2]) [] r.assumptions := by
  simp only [encodeIte, Encoder.encodeTerm, Rec.results_bind, Rec.results_call,
    Rec.results_pure] at h
  obtain ⟨o, ho, ite, hite, rfl⟩ := h
  exact ⟨⟨o, ho⟩, covers_constructUnion hR hite⟩

theorem covers_encodeOperation {op : OperationType}
    (h : (encodeOperation defs op args typ).Results R r) :
    Covers R args [] r.assumptions := by
  have hBV : (encodeOperationBV op args typ).Results R r → Covers R args [] r.assumptions := by
    intro h
    unfold encodeOperationBV at h
    split at h <;> first
      | exact covers_makeBinary hR h
      | exact covers_makeUnary hR h
      | exact covers_makeOperation hR h
  have hFP : (encodeOperationFP op args typ).Results R r → Covers R args [] r.assumptions := by
    intro h
    unfold encodeOperationFP at h
    split at h <;> first
      | exact covers_makeBinary hR h
      | exact covers_makeUnary hR h
      | exact h.elim
  unfold encodeOperation at h
  split at h
  · split at h
    · split at h
      · exact hFP h
      · exact hBV h
    · exact h.elim
  · exact hBV h

theorem covers_encodeCast {t₁ t₂ : Ty} (h : (encodeCast defs t₁ t₂ args).Results R r) :
    Covers R (args.take 1) [] r.assumptions := by
  unfold encodeCast at h
  split at h
  · simp only [Encoder.encodeTerm, Rec.results_bind, Rec.results_call, Rec.results_pure] at h
    obtain ⟨o, ho, rfl⟩ := h
    have hcovers := Covers.single hR ho
    exact hcovers
  · exact h.elim

/-- The assumptions of encoded cuts. -/
def assumptionsOfCuts (cuts : List EncodedCut) : List Expr :=
  cuts.flatMap fun c => c.1.assumptions ++ c.2.1.assumptions ++ c.2.2.1.assumptions

omit hR in
theorem mem_cutAssumptions {cuts : List EncodedCut} {a : Expr} :
    a ∈ cutAssumptions acc cuts ↔ a ∈ acc ++ assumptionsOfCuts cuts := by
  induction cuts with
  | nil => simp [cutAssumptions, assumptionsOfCuts]
  | cons c cuts ih =>
    have hstep : cutAssumptions acc (c :: cuts) = cutAssumptions acc cuts ++
        c.1.assumptions ++ c.2.1.assumptions ++ c.2.2.1.assumptions := rfl
    rw [hstep]
    simp only [mem_append, ih, assumptionsOfCuts, flatMap_cons]
    tauto

theorem covers_encodeCuts {cuts : List (Term × Term × Term × Bool)}
    (h : (encodeCuts cuts).Results R res) :
    Covers R (cuts.flatMap bounds) [] (assumptionsOfCuts res) := by
  induction cuts generalizing res with
  | nil =>
    simp only [encodeCuts, Rec.results_pure] at h
    subst h
    exact Covers.nil []
  | cons c cuts ih =>
    obtain ⟨s, e, pos, isWrite⟩ := c
    simp only [encodeCuts, Encoder.encodeTerm, Rec.results_bind, Rec.results_call,
      Rec.results_pure] at h
    obtain ⟨s', hs, e', he, pos', hpos, rest, hrest, rfl⟩ := h
    exact (((Covers.single hR hs).append (Covers.single hR he)).append
      (Covers.single hR hpos)).append (ih hrest)

omit hR in
theorem mem_headCuts {heads : List (Term × Term × Term × Term × Bool)}
    (h : headCuts branches = some heads) (g : Term) (c : Term × Term × Term × Bool) :
    (g, c) ∈ heads ↔ ∃ b ∈ branches, b.1 = g ∧ b.2.head? = some c := by
  induction branches generalizing heads with
  | nil =>
    cases h
    simp
  | cons b branches ih =>
    match b, h with
    | (g', c' :: cs), h =>
      obtain ⟨rest, hrest, rfl⟩ := map_eq_some_iff.mp h
      simp [ih hrest, eq_comm]

omit hR in
theorem mem_transposeAt {n : ℕ} (h : transposeAt n branches = some parts) (g : Term)
    (c : Term × Term × Term × Bool) :
    (∃ part ∈ parts, (g, c) ∈ part) ↔ ∃ b ∈ branches, b.1 = g ∧ c ∈ b.2 := by
  induction n generalizing branches parts with
  | zero =>
    simp only [transposeAt, ite_none_right_eq_some, List.all_eq_true, List.isEmpty_iff] at h
    obtain ⟨hempty, hparts⟩ := h
    cases hparts
    constructor
    · rintro ⟨part, hpart, _⟩
      cases hpart
    · rintro ⟨b, hb, _, hc⟩
      rw [hempty b hb] at hc
      cases hc
  | succ n ih =>
    obtain ⟨heads, hheads, rest⟩ := bind_eq_some_iff.mp h
    obtain ⟨tails, htails, hparts⟩ := bind_eq_some_iff.mp rest
    cases hparts
    have hmem : ∀ b : CutsBranch, c ∈ b.2 ↔ b.2.head? = some c ∨ c ∈ b.2.tail := by
      rintro ⟨_, _ | ⟨c', cs⟩⟩ <;> simp [eq_comm]
    simp only [mem_cons, exists_eq_or_imp, mem_headCuts hheads, ih htails, List.mem_map,
      exists_exists_and_eq_and]
    simp only [hmem, and_or_left, exists_or]

omit hR in
theorem mem_transposeCuts (h : transposeCuts branches = some parts) (g : Term)
    (c : Term × Term × Term × Bool) :
    (∃ part ∈ parts, (g, c) ∈ part) ↔ ∃ b ∈ branches, b.1 = g ∧ c ∈ b.2 := by
  unfold transposeCuts at h
  split at h
  · cases h
    simp
  · exact mem_transposeAt h g c

/-- The terms that `EncodeSlice` encodes for a guarded cut. -/
def guardedBounds (p : Term × Term × Term × Term × Bool) : List Term := p.1 :: bounds p.2

theorem covers_encodeSliceParts {elseCuts : List (Term × Term × Term × Bool)}
    (h : (encodeSliceParts parts elseCuts).Results R res) :
    (∀ d ∈ elseCuts.flatMap bounds, ∃ o, R d o) ∧
      Covers R (parts.flatMap fun part => part.flatMap guardedBounds) []
        (assumptionsOfCuts res) := by
  induction parts generalizing elseCuts res with
  | nil =>
    cases elseCuts with
    | nil =>
      simp only [encodeSliceParts, Rec.results_pure] at h
      subst h
      exact ⟨by simp, Covers.nil []⟩
    | cons => exact h.elim
  | cons part parts ih =>
    cases elseCuts with
    | nil => exact h.elim
    | cons cut elseCuts =>
      obtain ⟨s, e, pos, isWrite⟩ := cut
      simp only [encodeSliceParts, Rec.results_bind, Rec.results_pure] at h
      obtain ⟨s', hs, e', he, pos', hpos, rest, hrest, rfl⟩ := h
      obtain ⟨has, hs⟩ := covers_encodeIte hR hs
      obtain ⟨hae, he⟩ := covers_encodeIte hR he
      obtain ⟨hapos, hpos⟩ := covers_encodeIte hR hpos
      obtain ⟨harest, hrest⟩ := ih hrest
      refine ⟨?_, ?_⟩
      · simp only [flatMap_cons, bounds, cons_append, nil_append, forall_mem_cons]
        exact ⟨has, hae, hapos, harest⟩
      · refine (((hs.append he).append hpos).append hrest).congr ?_ fun a => Iff.rfl
        intro d
        simp only [flatMap_cons, mem_append, mem_flatMap, List.mem_map, guardedBounds, bounds,
          exists_exists_and_eq_and, mem_cons, not_mem_nil, or_false, and_or_left, exists_or]
        grind

theorem covers_encodeSlice {t : Term} {res : EncodingResult × List EncodedCut}
    (h : (encodeSlice t).Results R res) :
    (∀ d ∈ sliceElse t, ∃ o, R d o) ∧
      Covers R (sliceOutside t) [] (res.1.assumptions ++ assumptionsOfCuts res.2) := by
  unfold encodeSlice at h
  split at h
  case h_1 term cuts =>
    simp only [Encoder.encodeTerm, Rec.results_bind, Rec.results_call, Rec.results_pure] at h
    obtain ⟨cuts', hcuts, term', hterm, rfl⟩ := h
    exact ⟨by simp [sliceElse], (Covers.single hR hterm).append (covers_encodeCuts hR hcuts)⟩
  case h_2 branches e =>
    simp only [Rec.results_bind] at h
    obtain ⟨term', hterm, h⟩ := h
    obtain ⟨haterm, hterm⟩ := covers_encodeIte hR hterm
    split at h
    · rename_i parts hparts
      simp only [Rec.results_bind, Rec.results_pure] at h
      obtain ⟨cuts', hcuts, rfl⟩ := h
      obtain ⟨hacuts, hcuts⟩ := covers_encodeSliceParts hR hcuts
      refine ⟨?_, (hterm.append hcuts).congr ?_ fun a => Iff.rfl⟩
      · exact forall_mem_cons.mpr ⟨haterm, hacuts⟩
      · intro d
        have hmem := mem_transposeCuts hparts
        simp only [List.mem_map, exists_exists_and_eq_and] at hmem
        simp only [sliceOutside, branchPositions, guardedBounds, mem_append, mem_flatMap,
          List.mem_map, exists_exists_and_eq_and, mem_cons, not_mem_nil, or_false]
        constructor
        · rintro ⟨b, hb, hd | hd | ⟨c, hc, hd⟩⟩
          · exact .inl ⟨b, hb, .inl hd⟩
          · exact .inl ⟨b, hb, .inr hd⟩
          · obtain ⟨part, hpart, hp⟩ := (hmem b.1 c).mpr ⟨b, hb, rfl, hc⟩
            exact .inr ⟨part, hpart, (b.1, c), hp, .inr hd⟩
        · rintro (⟨b, hb, hd | hd⟩ | ⟨part, hpart, ⟨g, c⟩, hp, hd⟩)
          · exact ⟨b, hb, .inl hd⟩
          · exact ⟨b, hb, .inr (.inl hd)⟩
          · obtain ⟨b, hb, rfl, hc⟩ := (hmem g c).mp ⟨part, hpart, hp⟩
            exact ⟨b, hb, hd.imp id fun hd => .inr ⟨c, hc, hd⟩⟩
    · exact h.elim
  case h_3 hslice hite =>
    simp only [Encoder.encodeTerm, Rec.results_bind, Rec.results_call, Rec.results_pure] at h
    obtain ⟨term', hterm, rfl⟩ := h
    have hcovers := Covers.single hR hterm
    rw [sliceOutside.eq_3 _ hslice hite, sliceElse.eq_2 _ hite]
    exact ⟨by simp, by simpa [assumptionsOfCuts] using hcovers⟩

theorem covers_addSlices {slices : List Term} {acc res : Expr × List Expr}
    (h : (addSlices acc slices).Results R res) (hacc : Covers R ds [] acc.2) :
    (∀ d ∈ slices.flatMap sliceElse, ∃ o, R d o) ∧
      Covers R (ds ++ slices.flatMap sliceOutside) [] res.2 := by
  induction slices generalizing acc ds with
  | nil =>
    simp only [addSlices, Rec.results_pure] at h
    subst h
    exact ⟨by simp, by simpa using hacc⟩
  | cons slice slices ih =>
    obtain ⟨e, assumptions⟩ := acc
    simp only [addSlices, Rec.results_bind] at h
    obtain ⟨encoded, hencoded, h⟩ := h
    obtain ⟨haslice, hslice⟩ := covers_encodeSlice hR hencoded
    have hnext : Covers R _ _
        (cutAssumptions (assumptions ++ encoded.1.assumptions) encoded.2) :=
      (hacc.append hslice).congr (fun d => Iff.rfl) fun a => by
        rw [mem_cutAssumptions, append_assoc]
    obtain ⟨harest, hrest⟩ := ih h hnext
    refine ⟨?_, by simpa using hrest⟩
    intro d hd
    rw [flatMap_cons, mem_append] at hd
    exact hd.elim (haslice d) (harest d)

theorem covers_encodeOperator {op : Operation} (h : (encodeOperator defs op args typ).Results R r) :
    (∀ d ∈ elsePositions (.expression op args typ), ∃ o, R d o) ∧
      Covers R (operatorOutside op args) [] r.assumptions := by
  cases op with
  | operator op => exact ⟨by simp [elsePositions], covers_encodeOperation hR h⟩
  | application f => exact ⟨by simp [elsePositions], covers_makeOperation hR h⟩
  | cast t₁ t₂ => exact ⟨by simp [elsePositions], covers_encodeCast hR h⟩
  | combine =>
    simp only [encodeOperator, encodeCombine, Rec.results_bind, Rec.results_pure] at h
    obtain ⟨res, hres, rfl⟩ := h
    exact covers_addSlices hR hres (Covers.nil [])

theorem covers_checkKeys {inst : Expr} {updates : List Update}
    (h : (checkKeys path inst l updates).Results R r) (hl : Covers R ds own l) :
    Covers R (ds ++ updates.flatMap fun u =>
      [u.guard.getD Term.trueTerm, u.matchCondition, u.value path]) own r.assumptions := by
  induction updates generalizing r with
  | nil =>
    simp only [checkKeys, Rec.results_pure] at h
    subst h
    simpa using hl
  | cons u updates ih =>
    simp only [checkKeys, Encoder.encodeTerm, Rec.results_bind, Rec.results_call,
      Rec.results_pure] at h
    obtain ⟨acc, hacc, guard, hguard, matched, hmatched, value, hvalue, rfl⟩ := h
    have hcovers := (((ih hacc).append (Covers.single hR hguard)).append
      (Covers.single hR hmatched)).append (Covers.single hR hvalue)
    simp only [append_nil] at hcovers
    refine hcovers.congr (fun d => ?_) fun a => Iff.rfl
    simp only [flatMap_cons, mem_append, mem_cons, not_mem_nil, or_false]
    tauto

theorem covers_memoryReading {inst : List Expr → Expr × List Expr} {reading : Reading}
    (h : (memoryReading inst path reading).Results R r) :
    ∃ key, EncodedAs R reading.key key ∧
      Covers R (readingPositions reading path) (inst key).2 r.assumptions := by
  simp only [memoryReading, Encoder.encodeTerm, Rec.results_bind, Rec.results_call] at h
  obtain ⟨key, hkey, inRegion, hinRegion, h⟩ := h
  obtain ⟨hcovers, hkey⟩ := covers_encodeTerms hR hkey
  have hstart := ((Covers.single hR hinRegion).append hcovers).add (inst key.2).2
  have hread := covers_checkKeys hR h hstart
  simp only [append_nil] at hread
  refine ⟨key.2, hkey, hread.congr (fun d => ?_) fun a => Iff.rfl⟩
  simp only [readingPositions, mem_append, mem_cons, not_mem_nil, or_false]
  tauto

theorem covers_encodeMemoryAccessConstant {name : Source} {kind : SourceKind}
    (h : (encodeMemoryAccessConstant defs name kind path typ).Results R r) :
    ∃ key, EncodedAs R (sourceKey kind) key ∧
      Covers R (sourcePositions kind path) (sourceAssumptions defs key r.expr kind path typ)
        r.assumptions := by
  induction kind generalizing path typ r with
  | heapReading reading =>
    simp only [encodeMemoryAccessConstant, heapReading, Rec.results_bind, Rec.results_pure] at h
    obtain ⟨_, _, res, hres, rfl⟩ := h
    obtain ⟨key, hkey, hcovers⟩ := covers_memoryReading hR hres
    exact ⟨key, hkey, hcovers.add _⟩
  | arrayIndexReading hasDefaultValue reading | vectorIndexReading hasDefaultValue reading =>
    simp only [encodeMemoryAccessConstant, arrayReading, Rec.results_bind, Rec.results_pure] at h
    obtain ⟨_, _, res, hres, rfl⟩ := h
    obtain ⟨key, hkey, hcovers⟩ := covers_memoryReading hR hres
    exact ⟨key, hkey, hcovers.add _⟩
  | stackBufferReading reading =>
    simp only [encodeMemoryAccessConstant, stackBufferReading, Rec.results_bind] at h
    obtain ⟨_, _, h⟩ := h
    exact covers_memoryReading hR h
  | staticsReading sort key value =>
    refine ⟨[], .nil, ?_⟩
    simp only [encodeMemoryAccessConstant, staticsReading] at h
    split at h
    · simp only [Encoder.encodeTerm, Rec.results_call] at h
      exact Covers.single hR h
    · simp only [Rec.results_bind, Rec.results_pure] at h
      obtain ⟨_, _, rfl⟩ := h
      exact Covers.nil []
  | structFieldSource source field ih =>
    simp only [encodeMemoryAccessConstant, Rec.results_bind, Rec.results_pure] at h
    obtain ⟨res, hres, rfl⟩ := h
    obtain ⟨key, hkey, hcovers⟩ := ih hres
    exact ⟨key, hkey, hcovers.add _⟩
  | heapAddressSource source ih | pointerAddressSource source ih
  | pointerOffsetSource source ih => exact ih h
  | other =>
    refine ⟨[], .nil, ?_⟩
    simp only [encodeMemoryAccessConstant, createConstant, Rec.results_bind, Rec.results_pure] at h
    obtain ⟨_, _, rfl⟩ := h
    exact Covers.nil _

end

/-! ### The encodings of terms -/

section
variable (defs : Definitions)

/-- The body of `EncodeTerm`. -/
def encodeBody (t : Term) : Encoder EncodingResult := do
  let r ← encodeCases defs t
  match completeResult defs t r with
  | some result => pure result
  | none => .fail

/-- `r` is what `EncodeTerm` gives for `t`, without a cache. -/
def Encodes : Term → EncodingResult → Prop := Rec.Computes (encodeBody defs)

variable {defs} {R : Term → EncodingResult → Prop} {t : Term} {r : EncodingResult}

theorem results_encodeBody : (encodeBody defs t).Results R r ↔
    ∃ r', (encodeCases defs t).Results R r' ∧ completeResult defs t r' = some r := by
  simp only [encodeBody, Rec.results_bind]
  refine exists_congr fun r' => and_congr_right fun _ => ?_
  cases completeResult defs t r' <;> simp [eq_comm]

theorem covers_encodeCases (hR : Functional R) (h : (encodeCases defs t).Results R r) :
    (∀ d ∈ elsePositions t, ∃ o, R d o) ∧ ∃ key, EncodedAs R (keyOf defs t) key ∧
      Covers R (outsidePositions defs t) (constantOwn defs key r.expr t) r.assumptions := by
  unfold encodeCases at h
  split at h
  case h_1 obj typ =>
    refine ⟨by simp [elsePositions], [], .nil, ?_⟩
    have hnil : r.assumptions = [] := by
      simp only [encodeConcrete] at h
      split at h <;> (try split at h) <;> (try split at h) <;>
        simp_all [Rec.results_pure, Rec.results_fail]
    rw [hnil]
    exact Covers.nil []
  case h_2 source typ =>
    exact ⟨by simp [elsePositions], covers_encodeMemoryAccessConstant hR h⟩
  case h_3 op args typ =>
    obtain ⟨helse, hcovers⟩ := covers_encodeOperator hR h
    exact ⟨helse, [], .nil, hcovers⟩
  case h_4 address typ =>
    simp only [Encoder.encodeTerm, Rec.results_call] at h
    exact ⟨by simp [elsePositions], [], .nil, Covers.single hR h⟩
  case h_5 branches e =>
    obtain ⟨helse, hcovers⟩ := covers_encodeIte hR h
    exact ⟨by simpa [elsePositions] using helse, [], .nil, hcovers⟩
  case h_6 => exact h.elim

/-- What the body of `EncodeTerm` returns, from the answers to its calls. -/
theorem encodeBody_spec (hR : Functional R) (h : (encodeBody defs t).Results R r) :
    (∀ d ∈ outsidePositions defs t ++ elsePositions t, ∃ o, R d o) ∧
      ∃ key, EncodedAs R (keyOf defs t) key ∧ ∀ a, a ∈ r.assumptions ↔ a ≠ trueExpr ∧
        (a ∈ ownAssumptions defs t key r.expr ∨
          ∃ d ∈ outsidePositions defs t, ∃ o, R d o ∧ a ∈ o.assumptions) := by
  obtain ⟨r', hcases, hr⟩ := results_encodeBody.mp h
  obtain ⟨typ, -, rfl⟩ := map_eq_some_iff.mp hr
  obtain ⟨helse, key, hkey, hcovers⟩ := covers_encodeCases hR hcases
  refine ⟨?_, key, hkey, fun a => ?_⟩
  · intro d hd
    exact (mem_append.mp hd).elim (hcovers.answered d) (helse d)
  · simp only [simplifyAndElements, mem_eraseDups, mem_filter, mem_append,
      decide_eq_true_eq, ownAssumptions, hcovers.mem_iff a]
    tauto

theorem Encodes.unique {r' : EncodingResult} (h : Encodes defs t r) (h' : Encodes defs t r') :
    r = r' := Rec.Computes.unique h h'

theorem functional_encodes : Functional (Encodes defs) := fun _ _ _ => Encodes.unique

theorem encodes_iff_results : Encodes defs t r ↔ (encodeBody defs t).Results (Encodes defs) r :=
  Rec.computes_iff

end

/-! ### The cache -/

section
variable {defs : Definitions} {n : ℕ} {t : Term} {r : EncodingResult} {c c' : Cache}
  {h : Term → Cache → Option (EncodingResult × Cache)}

/-- The cache holds encodings. -/
def CacheOk (defs : Definitions) (c : Cache) : Prop := ∀ t r, tryFind c t = some r → Encodes defs t r

theorem CacheOk.nil : CacheOk defs [] := by
  intro t r h
  simp [tryFind] at h

/-- Storing an encoding, whatever was stored for the term before. -/
theorem CacheOk.set (hc : ∀ t' r', t' ≠ t → tryFind c t' = some r' → Encodes defs t' r')
    (h : Encodes defs t r) : CacheOk defs (Dictionary.set t r c) := by
  intro t' r' h'
  rw [Dictionary.tryFind_set] at h'
  split at h'
  case isTrue heq =>
    cases h'
    exact heq ▸ h
  case isFalse hne => exact hc t' r' hne h'

theorem Cache.get_eq_some {encoder : Cache → Option (EncodingResult × Cache)} :
    Cache.get t encoder c = some (r, c') ↔ tryFind c t = some r ∧ c' = c ∨
      tryFind c t = none ∧ ∃ c₁, encoder c = some (r, c₁) ∧ c' = Dictionary.set t r c₁ := by
  unfold Cache.get
  cases tryFind c t with
  | some r' => simp [eq_comm]
  | none =>
    simp only [map_eq_some_iff, Prod.mk.injEq, reduceCtorEq, false_and, true_and, false_or]
    constructor
    · rintro ⟨⟨r', c₁⟩, h, rfl, rfl⟩
      exact ⟨c₁, h, rfl⟩
    · rintro ⟨c₁, h, rfl⟩
      exact ⟨(r, c₁), h, rfl, rfl⟩

/-- The second lookup of an expression finds nothing; what it stores is replaced later. -/
theorem encodeCasesIn_eq_some (hnone : tryFind c t = none) :
    (∃ c', encodeCasesIn defs h t c = some (r, c')) ↔
      ∃ c₁, (encodeCases defs t).exec h c = some (r, c₁) := by
  unfold encodeCasesIn
  split
  · simp [Cache.get_eq_some, hnone]
  · rfl

theorem tryFind_encodeCasesIn (hnone : tryFind c t = none)
    (hcases : encodeCasesIn defs h t c = some (r, c')) :
    ∃ c₁, (encodeCases defs t).exec h c = some (r, c₁) ∧
      ∀ t', t' ≠ t → tryFind c' t' = tryFind c₁ t' := by
  unfold encodeCasesIn at hcases
  split at hcases
  · simp only [Cache.get_eq_some, hnone, reduceCtorEq, false_and, true_and, false_or] at hcases
    obtain ⟨c₁, hexec, rfl⟩ := hcases
    exact ⟨c₁, hexec, fun t' hne => by rw [Dictionary.tryFind_set, if_neg hne]⟩
  · exact ⟨c', hcases, fun _ _ => rfl⟩

/-- The encoder with the cache gives encodings. -/
theorem encodeTerm_answers (defs : Definitions) (n : ℕ) :
    Rec.Answers (encodeTerm defs n) (Encodes defs) (CacheOk defs) := by
  induction n with
  | zero =>
    intro t c r c' _ h
    cases h
  | succ n ih =>
    intro t c r c' hc h
    rcases Cache.get_eq_some.mp h with ⟨hfound, rfl⟩ | ⟨hnone, c₂, hbody, rfl⟩
    · exact ⟨hc t r hfound, hc⟩
    · obtain ⟨⟨r₀, c₃⟩, hcases, hbody⟩ := bind_eq_some_iff.mp hbody
      obtain ⟨r₁, hcomplete, hbody⟩ := bind_eq_some_iff.mp hbody
      cases hbody
      obtain ⟨c₁, hexec, hsame⟩ := tryFind_encodeCasesIn hnone hcases
      obtain ⟨hresults, hc₁⟩ := Rec.results_of_exec ih hc hexec
      have hencodes : Encodes defs t r :=
        encodes_iff_results.mpr (results_encodeBody.mpr ⟨r₀, hresults, hcomplete⟩)
      refine ⟨hencodes, CacheOk.set (fun t' r' hne h' => hc₁ t' r' ?_) hencodes⟩
      rw [← hsame t' hne]
      exact h'

/-- The encoder with the cache gives every encoding, with enough nested calls. -/
theorem encodeTerm_answersAll (defs : Definitions) (n : ℕ) :
    Rec.AnswersAll (encodeTerm defs n) (Rec.ComputesIn (encodeBody defs) n) (CacheOk defs) := by
  induction n with
  | zero =>
    intro t c r _ h
    exact h.elim
  | succ n ih =>
    intro t c r hc h
    have hencodes : Encodes defs t r := ⟨n + 1, h⟩
    suffices hrun : ∃ c', encodeTerm defs (n + 1) t c = some (r, c') by
      obtain ⟨c', hrun⟩ := hrun
      exact ⟨c', hrun, (encodeTerm_answers defs (n + 1) t c r c' hc hrun).2⟩
    cases hfound : tryFind c t with
    | some r' =>
      cases hencodes.unique (hc t r' hfound)
      exact ⟨c, Cache.get_eq_some.mpr (.inl ⟨hfound, rfl⟩)⟩
    | none =>
      obtain ⟨r₀, hresults, hcomplete⟩ := results_encodeBody.mp h
      obtain ⟨c₁, hexec, -⟩ := Rec.exec_of_results ih hc hresults
      obtain ⟨c₂, hcases⟩ := (encodeCasesIn_eq_some hfound).mpr ⟨c₁, hexec⟩
      refine ⟨_, Cache.get_eq_some.mpr (.inr ⟨hfound, c₂, ?_, rfl⟩)⟩
      simp [hcases, hcomplete]

/-- The caches that earlier calls of `EncodeTerm` can leave. -/
inductive Reached (defs : Definitions) : Cache → Prop where
  | fresh : Reached defs []
  | next {n : ℕ} {t : Term} {r : EncodingResult} {c c' : Cache} (hc : Reached defs c)
      (h : encodeTerm defs n t c = some (r, c')) : Reached defs c'

theorem Reached.cacheOk (hc : Reached defs c) : CacheOk defs c := by
  induction hc with
  | fresh => exact CacheOk.nil
  | next _ h ih => exact (encodeTerm_answers defs _ _ _ _ _ ih h).2

/-- The cache changes no result. -/
theorem encodes_of_encodeTerm (hc : Reached defs c) (h : encodeTerm defs n t c = some (r, c')) :
    Encodes defs t r :=
  (encodeTerm_answers defs n t c r c' hc.cacheOk h).1

/-- From every cache, `EncodeTerm` returns what it returns from the empty one. -/
theorem exists_encodeTerm_of_encodes (hc : Reached defs c) (h : Encodes defs t r) :
    ∃ n c', encodeTerm defs n t c = some (r, c') := by
  obtain ⟨n, hn⟩ := h
  obtain ⟨c', hrun, -⟩ := encodeTerm_answersAll defs n t c r hc.cacheOk hn
  exact ⟨n, c', hrun⟩

end

/-! ### The assumptions of a term -/

section
variable {defs : Definitions} {t d : Term} {r : EncodingResult} {a : Expr}

/-- `t` brings the assumption `a`. -/
def Introduces (defs : Definitions) (t : Term) (a : Expr) : Prop :=
  a ≠ trueExpr ∧ ∃ r key, Encodes defs t r ∧ EncodedAs (Encodes defs) (keyOf defs t) key ∧
    a ∈ ownAssumptions defs t key r.expr

theorem EncodedAs.unique {R : Term → EncodingResult → Prop} (hR : Functional R) {ts : List Term}
    {key key' : List Expr} (h : EncodedAs R ts key) (h' : EncodedAs R ts key') : key = key' := by
  induction h generalizing key' with
  | nil =>
    cases h'
    rfl
  | cons hhead _ ih =>
    obtain ⟨o, ho, rfl⟩ := hhead
    cases h' with
    | cons hhead' htail' =>
      obtain ⟨o', ho', rfl⟩ := hhead'
      rw [hR _ o o' ho ho', ih htail']

/-- The assumptions of a term are those that it introduces, and those that the positions outside the
else values introduce. -/
theorem mem_assumptions_iff (h : Encodes defs t r) :
    a ∈ r.assumptions ↔ ∃ d, Outside defs t d ∧ Introduces defs d a := by
  -- The calls of the body are answered by encodings for which the statement holds.
  refine Rec.Computes.induct
    (P := fun t r => ∀ a, a ∈ r.assumptions ↔ ∃ d, Outside defs t d ∧ Introduces defs d a)
    (fun t r hbody a => ?_) h a
  have hencodes : Encodes defs t r := encodes_iff_results.mpr (hbody.mono fun _ _ h => h.1)
  obtain ⟨hanswered, key, hkey, hmem⟩ := encodeBody_spec (fun _ _ _ h h' => h.1.unique h'.1) hbody
  have hkey : EncodedAs (Encodes defs) (keyOf defs t) key :=
    hkey.imp fun _ _ ⟨o, ho, he⟩ => ⟨o, ho.1, he⟩
  rw [hmem]
  constructor
  · rintro ⟨hne, hown | ⟨d, hd, o, ⟨_, ho⟩, ha⟩⟩
    · exact ⟨t, .refl, hne, r, key, hencodes, hkey, hown⟩
    · obtain ⟨e, hout, hintro⟩ := (ho a).mp ha
      exact ⟨e, .head hd hout, hintro⟩
  · rintro ⟨e, hout, hintro⟩
    refine ⟨hintro.1, ?_⟩
    rcases Relation.ReflTransGen.cases_head hout with rfl | ⟨d, hd, hout⟩
    · obtain ⟨-, r', key', hencodes', hkey', hown⟩ := hintro
      cases hencodes.unique hencodes'
      cases EncodedAs.unique functional_encodes hkey hkey'
      exact .inl hown
    · obtain ⟨o, hanswer⟩ := hanswered d (mem_append_left _ hd)
      exact .inr ⟨d, hd, o, hanswer, (hanswer.2 a).mpr ⟨e, hout, hintro⟩⟩

/-- `a` is among the assumptions that `EncodeTerm` returns for `d`. -/
def HasAssumption (defs : Definitions) (d : Term) (a : Expr) : Prop :=
  ∃ n o c', encodeTerm defs n d [] = some (o, c') ∧ a ∈ o.assumptions

theorem hasAssumption_iff : HasAssumption defs d a ↔ ∃ o, Encodes defs d o ∧ a ∈ o.assumptions := by
  constructor
  · rintro ⟨n, o, c', h, ha⟩
    exact ⟨o, encodes_of_encodeTerm .fresh h, ha⟩
  · rintro ⟨o, ho, ha⟩
    obtain ⟨n, c', h⟩ := exists_encodeTerm_of_encodes .fresh ho
    exact ⟨n, o, c', h, ha⟩

/-- Constants, memory readings among them. -/
def isConstant : Term → Bool
  | .constant .. => true
  | _ => false

/-- The result keeps the assumptions of all constants of the term. -/
def KeepsAssumptions (defs : Definitions) (t : Term) (r : EncodingResult) : Prop :=
  ∀ d, Encoded defs t d → isConstant d = true → ∀ a, HasAssumption defs d a → a ∈ r.assumptions

/-- The assumptions of a term are complete exactly when each assumption of a constant that occurs
only in else values is also introduced outside them. -/
theorem encodeTerm_keeps_iff {n : ℕ} {c c' : Cache} (hc : Reached defs c)
    (h : encodeTerm defs n t c = some (r, c')) :
    KeepsAssumptions defs t r ↔
      ∀ d, Encoded defs t d → isConstant d = true → ¬ Outside defs t d →
        ∀ a, HasAssumption defs d a → ∃ e, Outside defs t e ∧ Introduces defs e a := by
  have hencodes := encodes_of_encodeTerm hc h
  constructor
  · intro hkeeps d hd hconst _ a ha
    exact (mem_assumptions_iff hencodes).mp (hkeeps d hd hconst a ha)
  · intro hcond d hd hconst a ha
    rw [mem_assumptions_iff hencodes]
    by_cases hout : Outside defs t d
    · obtain ⟨o, ho, hmem⟩ := hasAssumption_iff.mp ha
      obtain ⟨e, he, hintro⟩ := (mem_assumptions_iff ho).mp hmem
      exact ⟨e, hout.trans he, hintro⟩
    · exact hcond d hd hconst hout a ha

/-- No memory readings, no enumerations. -/
def plainConstants : Definitions where
  source _ := .other
  isAssignableTo _ _ := false
  enumValues _ := none
  numericBitSizeOf t := if t = .int32 then some 32 else none
  stringLengthField := ⟨.named 0, "Length", .int32⟩
  decimalType := .named 1
  maxBufferSize := 128
  charsArePretty := false

/-- A symbolic address. -/
def symbolicAddress : Term := .constant ⟨0, VectorTime.zero⟩ .address

def symbolicGuard : Term := .constant ⟨1, VectorTime.zero⟩ .bool

/-- A union whose else value is the symbolic address. -/
def addressUnion : Term := .ite [(symbolicGuard, Term.concreteHeapAddress [1])] symbolicAddress

/-- The symbolic address compared with the union that has it as its else value. -/
def sharedAddress : Term :=
  .expression (.operator .equal) [symbolicAddress, addressUnion] .bool

/-- The encoded positions of `sharedAddress`. -/
def sharedPositions : List Term :=
  [sharedAddress, symbolicAddress, addressUnion, symbolicGuard, Term.concreteHeapAddress [1]]

theorem mem_sharedPositions (hd : Encoded plainConstants sharedAddress d) :
    d ∈ sharedPositions := by
  have hclosed : ∀ x ∈ sharedPositions,
      ∀ y ∈ outsidePositions plainConstants x ++ elsePositions x, y ∈ sharedPositions := by decide
  induction hd with
  | refl => decide
  | tail _ hnext ih => exact hclosed _ ih _ hnext

/-- The address also occurs outside the else value, so its assumption is kept. -/
theorem sharedAddress_keeps_assumptions :
    ∃ r c', encodeTerm plainConstants 3 sharedAddress [] = some (r, c') ∧
      KeepsAssumptions plainConstants sharedAddress r := by
  have hsome : (encodeTerm plainConstants 3 sharedAddress []).isSome := by decide
  obtain ⟨⟨r, c'⟩, hrun⟩ := isSome_iff_exists.mp hsome
  refine ⟨r, c', hrun, (encodeTerm_keeps_iff .fresh hrun).mpr ?_⟩
  have haddress : Outside plainConstants sharedAddress symbolicAddress := .single (by decide)
  have hguard : Outside plainConstants sharedAddress symbolicGuard :=
    .tail (.single (show addressUnion ∈ _ by decide)) (by decide)
  intro d hd hconst hout
  have hmem := mem_sharedPositions hd
  simp only [sharedPositions, mem_cons, not_mem_nil, or_false] at hmem
  rcases hmem with rfl | rfl | rfl | rfl | rfl
  · cases hconst
  · exact absurd haddress hout
  · cases hconst
  · exact absurd hguard hout
  · cases hconst

/-- The symbolic address in the else value of a union is not bounded by zero. -/
theorem else_value_loses_assumption :
    ∃ r c', encodeTerm plainConstants 2 addressUnion [] = some (r, c') ∧
      ¬ KeepsAssumptions plainConstants addressUnion r := by
  refine ⟨_, _, rfl, fun hkeeps => ?_⟩
  have hmem := hkeeps symbolicAddress (.single (by decide)) rfl
    (apply .bvsle [func (.const ⟨0, VectorTime.zero⟩ .address), mkBV 0])
    ⟨1, _, _, rfl, by decide⟩
  revert hmem
  decide

end

end VSharp.Encoding
