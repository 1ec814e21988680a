import VSharp.Core.Terms
import VSharp.Library.Recursion
import VSharp.Utils.Collections

/-!
# Solver — Encoding

`VSharp.Solver/Z3.fs`: the translation of terms to solver expressions, with the assumptions that
come with it.

- `Expr` are the expressions built through the solver's interface, with the simplifications that the
  encoder makes before it calls the solver;
- `Definitions` says what the sources of constants and the types are; the terms that a memory reading
  makes the encoder look at (its key, the updates of its region) are part of it;
- the functions of the encoder are `Encoder`s, computations that call `EncodeTerm`;
- `encodeTerm` runs them through the cache.

The recursion is bounded by a number of nested calls; with too few of them there is no result, as
there is none where the code throws an exception.
-/

namespace VSharp.Encoding

/-! ### Expressions -/

inductive RegionSort where
  | heapField (field : FieldId)
  | staticField (field : FieldId)
  | arrayIndex (t : ArrayType)
  | arrayLength (t : ArrayType)
  | arrayLowerBound (t : ArrayType)
  | stackBuffer (key : StackKey)
  | boxed (t : Ty)
deriving DecidableEq, Repr

inductive PathPart where
  | structField (field : FieldId)
  | pointerAddress
  | pointerOffset
deriving DecidableEq, Repr

abbrev Path := List PathPart

/-- The functions and constants of the solver. -/
inductive Func where
  | true | false
  | const (source : Source) (t : Ty)
  | numeral (obj : Obj) (t : Ty)
  /-- `MkBV`, of the width of the expression it meets. -/
  | bv (n : ℤ)
  /-- The array constant of a region. -/
  | region (sort : RegionSort) (path : Path)
  | staticKey (t : Ty)
  | select | ite | eq | not | and | or | xor
  | bvsle | bvsge | bvsgt | bvslt | bvuge | bvule
  | extract (high low : ℕ)
  | operation (op : OperationType) (t : Ty)
  | application (f : StandardFunction) (t : Ty)
  | cast (src dst : Ty)
  | combine (t : Ty)
  | slice
deriving DecidableEq, Repr

/-- A solver expression: a function applied to arguments one at a time. -/
inductive Expr where
  | func (f : Func)
  | app (f a : Expr)
deriving DecidableEq, Repr

namespace Expr

def apply (f : Func) (args : List Expr) : Expr := args.foldl app (func f)

def trueExpr : Expr := func .true

def falseExpr : Expr := func .false

def mkNot (e : Expr) : Expr :=
  if e = trueExpr then falseExpr else if e = falseExpr then trueExpr else apply .not [e]

def mkAnd (left right : Expr) : Expr :=
  if left = right then left
  else if left = trueExpr then right
  else if right = trueExpr then left
  else if left = falseExpr then left
  else if right = falseExpr then right
  else apply .and [left, right]

def simplifyAndElements (elems : List Expr) : List Expr :=
  (elems.filter fun e => e ≠ trueExpr).eraseDups

/-- `MkAnd` of a sequence. -/
def mkAndSeq (elems : List Expr) : Expr :=
  if falseExpr ∈ elems then falseExpr
  else match simplifyAndElements elems with
    | [] => trueExpr
    | [e] => e
    | elems => apply .and elems

/-- `MkOr` of a sequence. -/
def mkOrSeq (elems : List Expr) : Expr :=
  if trueExpr ∈ elems then trueExpr
  else match (elems.filter fun e => e ≠ falseExpr).eraseDups with
    | [] => falseExpr
    | [e] => e
    | elems => apply .or elems

def mkITE (cond thenExpr elseExpr : Expr) : Expr :=
  if cond = trueExpr then thenExpr
  else if cond = falseExpr then elseExpr
  else if thenExpr = elseExpr then thenExpr
  else apply .ite [cond, thenExpr, elseExpr]

def mkEq (left right : Expr) : Expr :=
  if left = right then trueExpr else apply .eq [left, right]

def mkBVSLE (left right : Expr) : Expr :=
  if left = right then trueExpr else apply .bvsle [left, right]

def mkBVSGE (left right : Expr) : Expr :=
  if left = right then trueExpr else apply .bvsge [left, right]

def mkBVUGE (left right : Expr) : Expr :=
  if left = right then trueExpr else apply .bvuge [left, right]

def mkBVULE (left right : Expr) : Expr :=
  if left = right then trueExpr else apply .bvule [left, right]

def mkBV (n : ℤ) : Expr := func (.bv n)

end Expr

open VSharp.Encoding.Expr Library

structure EncodingResult where
  expr : Expr
  assumptions : List Expr
deriving DecidableEq, Repr

/-! ### Sources -/

/-- An update of a memory region, with the condition under which it matches the key that is read and
the value it gives along a path. -/
structure Update where
  guard : Option Term
  matchCondition : Term
  value : Path → Term

/-- What a reading of a region makes the encoder look at: the terms of the key, the condition that
the key lies in its region, the flattened updates. -/
structure Reading where
  sort : RegionSort
  key : List Term
  inRegion : Term
  updates : List Update

/-- The kinds of `ISymbolicConstantSource`. -/
inductive SourceKind where
  | heapReading (reading : Reading)
  | arrayIndexReading (hasDefaultValue : Bool) (reading : Reading)
  | vectorIndexReading (hasDefaultValue : Bool) (reading : Reading)
  | stackBufferReading (reading : Reading)
  /-- A static field, with the value of the first update at its key. -/
  | staticsReading (sort : RegionSort) (key : Ty) (value : Option Term)
  | structFieldSource (source : SourceKind) (field : FieldId)
  | heapAddressSource (source : SourceKind)
  | pointerAddressSource (source : SourceKind)
  | pointerOffsetSource (source : SourceKind)
  | other

/-- What the encoder asks about sources and types, and its settings. -/
structure Definitions where
  source : Source → SourceKind
  isAssignableTo : Ty → Ty → Bool
  /-- `Enum.GetValues` of an enumeration. -/
  enumValues : Ty → Option (List Obj)
  /-- `numericBitSizeOf` of a numeric type. -/
  numericBitSizeOf : Ty → Option ℕ
  stringLengthField : FieldId
  /-- `typeof<decimal>`. -/
  decimalType : Ty
  maxBufferSize : ℤ
  charsArePretty : Bool

namespace Definitions
variable (defs : Definitions)

mutual

def typeOf : Term → Option Ty
  | .nop => some .void
  | .concrete _ t | .constant _ t | .expression _ _ t | .heapRef _ t | .struct _ t => some t
  | .ref a => some (.byRef (Term.addressTypeOfLocation a))
  | .ptr _ t _ => some (.pointer t)
  | .slice .. => none
  | .ite branches e => do
      let elset ← typeOf e
      let types ← typesOf branches
      if types.isEmpty then none
      else if types.all (· = elset) then some elset
      else some (types.foldl (fun acc t => if defs.isAssignableTo t acc then acc else t) elset)
termination_by structural t => t

def typesOf : List (Term × Term) → Option (List Ty)
  | [] => some []
  | (_, v) :: branches => do
      let t ← typeOf v
      let ts ← typesOf branches
      some (t :: ts)
termination_by structural branches => branches

end

def isReal (t : Ty) : Bool := t = .single ∨ t = .double

def isNumeric (t : Ty) : Bool := (defs.numericBitSizeOf t).isSome

end Definitions

/-! ### The functions of the encoder -/

/-- What the encoder computes with calls of `EncodeTerm`. -/
abbrev Encoder := Rec Term EncodingResult

/-- The recursive call of `EncodeTerm`. -/
def Encoder.encodeTerm (t : Term) : Encoder EncodingResult := .call t .ret

section
variable (defs : Definitions)

def encodeConcrete (obj : Obj) (typ : Ty) : Encoder EncodingResult :=
  if typ = .bool then
    match obj with
    | .bool b => pure ⟨if b then trueExpr else falseExpr, []⟩
    | _ => .fail
  else if typ = .address then
    match obj with
    | .address _ => pure ⟨func (.numeral obj typ), []⟩
    | _ => .fail
  else if defs.isNumeric typ then pure ⟨func (.numeral obj typ), []⟩
  else .fail

/-- `Type2Sort`: the types that have a sort. -/
def type2Sort (typ : Ty) : Encoder Unit :=
  if typ = .bool ∨ typ = .address ∨ defs.isNumeric typ then pure () else .fail

/-- The assumptions of `CreateConstant`. -/
def constantAssumptions (constant : Expr) (typ : Ty) : List Expr :=
  if typ = .address then [apply .bvsle [constant, mkBV 0]] else []

def createConstant (source : Source) (typ : Ty) : Encoder EncodingResult := do
  type2Sort defs typ
  let constant := func (.const source typ)
  pure ⟨constant, constantAssumptions constant typ⟩

/-- That the expression is one of the values of the enumeration. -/
def enumAssumption (typ : Ty) (values : List Obj) (expr : Expr) : Expr :=
  mkOrSeq (values.map fun value => mkEq expr (func (.numeral value typ)))

def makeUnary (constructor : Expr → Expr) : List Term → Encoder EncodingResult
  | [a] => do
      let result ← Encoder.encodeTerm a
      pure ⟨constructor result.expr, result.assumptions⟩
  | _ => .fail

def makeBinary (constructor : Expr → Expr → Expr) : List Term → Encoder EncodingResult
  | [a, b] => do
      let a' ← Encoder.encodeTerm a
      let b' ← Encoder.encodeTerm b
      pure ⟨constructor a'.expr b'.expr, a'.assumptions ++ b'.assumptions⟩
  | _ => .fail

/-- `EncodeTerms`, after the assumptions collected so far. -/
def encodeTermsAfter : List Expr → List Term → Encoder (List Expr × List Expr)
  | acc, [] => pure (acc, [])
  | acc, t :: ts => do
      let result ← Encoder.encodeTerm t
      let rest ← encodeTermsAfter (acc ++ result.assumptions) ts
      pure (rest.1, result.expr :: rest.2)

/-- `EncodeTerms`: the assumptions and the expressions. -/
def encodeTerms (ts : List Term) : Encoder (List Expr × List Expr) := encodeTermsAfter [] ts

def makeOperation (constructor : List Expr → Expr) (args : List Term) : Encoder EncodingResult := do
  let encoded ← encodeTerms args
  pure ⟨constructor encoded.2, encoded.1⟩

/-- `constructUnion`, from the last branch on. -/
def constructUnion (elseValue : Expr) : List (Term × Term) → Encoder (Expr × List Expr)
  | [] => pure (elseValue, [])
  | (g, v) :: branches => do
      let prev ← constructUnion elseValue branches
      let guard ← Encoder.encodeTerm g
      let value ← Encoder.encodeTerm v
      pure (mkITE guard.expr value.expr prev.1, prev.2 ++ guard.assumptions ++ value.assumptions)

/-- `EncodeIte`.  The assumptions of the else value are not used. -/
def encodeIte (branches : List (Term × Term)) (elseValue : Term) : Encoder EncodingResult := do
  let elseResult ← Encoder.encodeTerm elseValue
  let ite ← constructUnion elseResult.expr branches
  pure ⟨ite.1, ite.2⟩

/-! ### Operators and casts -/

/-- The operations of `EncodeOperationBV`. -/
def encodeOperationBV (op : OperationType) (args : List Term) (typ : Ty) : Encoder EncodingResult :=
  match op with
  | .equal => makeBinary mkEq args
  | .notEqual => makeBinary (fun l r => mkNot (mkEq l r)) args
  | .bitwiseNot | .unaryMinus => makeUnary (fun e => apply (.operation op typ) [e]) args
  | .logicalNot => makeUnary mkNot args
  | .logicalAnd => makeOperation mkAndSeq args
  | .logicalOr => makeOperation mkOrSeq args
  | .logicalXor => makeOperation (apply .xor) args
  | .greater | .greater_Un | .less | .less_Un =>
    makeBinary (fun l r => if l = r then falseExpr else apply (.operation op typ) [l, r]) args
  | .greaterOrEqual | .greaterOrEqual_Un | .lessOrEqual | .lessOrEqual_Un =>
    makeBinary (fun l r => if l = r then trueExpr else apply (.operation op typ) [l, r]) args
  | _ => makeBinary (fun l r => apply (.operation op typ) [l, r]) args

/-- The operations of `EncodeOperationFP`. -/
def encodeOperationFP (op : OperationType) (args : List Term) (typ : Ty) : Encoder EncodingResult :=
  match op with
  | .equal => makeBinary (fun l r => apply .eq [l, r]) args
  | .notEqual => makeBinary (fun l r => mkNot (apply .eq [l, r])) args
  | .greater | .greater_Un | .greaterOrEqual | .greaterOrEqual_Un | .less | .less_Un
  | .lessOrEqual | .lessOrEqual_Un | .add | .multiply | .subtract | .divide | .remainder =>
    makeBinary (fun l r => apply (.operation op typ) [l, r]) args
  | .unaryMinus => makeUnary (fun e => apply (.operation op typ) [e]) args
  | _ => .fail

def encodeOperation (op : OperationType) (args : List Term) (typ : Ty) : Encoder EncodingResult :=
  match args with
  | arg :: _ =>
    match defs.typeOf arg with
    | some t => if Definitions.isReal t then encodeOperationFP op args typ
        else encodeOperationBV op args typ
    | none => .fail
  | [] => encodeOperationBV op args typ

/-- The expression of a cast; `none` where it is not supported. -/
def castExpr (t₁ t₂ : Ty) : Option (Expr → Expr) :=
  match defs.numericBitSizeOf t₁, defs.numericBitSizeOf t₂ with
  | some n₁, some n₂ =>
    if Definitions.isReal t₁ || Definitions.isReal t₂ || n₁ ≠ n₂ then
      some fun e => apply (.cast t₁ t₂) [e]
    else some id
  | none, some _ =>
    if t₁ = .bool then
      some fun e => mkITE e (func (.numeral (.int 1) t₂)) (func (.numeral (.int 0) t₂))
    else none
  | some _, none =>
    if t₂ = .bool then some fun e => mkNot (mkEq e (func (.numeral (.int 0) t₁))) else none
  | none, none => none

/-- The casts of `EncodeExpression`. -/
def encodeCast (t₁ t₂ : Ty) (args : List Term) : Encoder EncodingResult :=
  match castExpr defs t₁ t₂, args with
  | some constructor, arg :: _ => do
      let result ← Encoder.encodeTerm arg
      pure ⟨constructor result.expr, result.assumptions⟩
  | _, _ => .fail

/-! ### Combinations -/

/-- A cut with its bounds encoded. -/
abbrev EncodedCut := EncodingResult × EncodingResult × EncodingResult × Bool

def encodeCuts : List (Term × Term × Term × Bool) → Encoder (List EncodedCut)
  | [] => pure []
  | (s, e, pos, isWrite) :: cuts => do
      let s' ← Encoder.encodeTerm s
      let e' ← Encoder.encodeTerm e
      let pos' ← Encoder.encodeTerm pos
      let rest ← encodeCuts cuts
      pure ((s', e', pos', isWrite) :: rest)

def extractTerm : Term → Term
  | .slice t _ => t
  | t => t

def extractCuts : Term → List (Term × Term × Term × Bool)
  | .slice _ cuts => cuts
  | _ => []

/-- A branch of a sliced union: its guard and its cuts. -/
abbrev CutsBranch := Term × List (Term × Term × Term × Bool)

/-- The first cuts of the branches, each with the guard of its branch. -/
def headCuts : List CutsBranch → Option (List (Term × Term × Term × Term × Bool))
  | [] => some []
  | (_, []) :: _ => none
  | (g, c :: _) :: branches => (headCuts branches).map fun heads => (g, c) :: heads

/-- `List.transpose` of the cuts of the branches, for branches of `n` cuts. -/
def transposeAt : ℕ → List CutsBranch → Option (List (List (Term × Term × Term × Term × Bool)))
  | 0, branches => if branches.all fun b => b.2.isEmpty then some [] else none
  | n + 1, branches => do
      let heads ← headCuts branches
      let rest ← transposeAt n (branches.map fun b => (b.1, b.2.tail))
      some (heads :: rest)

/-- `List.transpose` of the cuts of the branches. -/
def transposeCuts (branches : List CutsBranch) :
    Option (List (List (Term × Term × Term × Term × Bool))) :=
  match branches with
  | [] => some []
  | b :: branches => transposeAt b.2.length (b :: branches)

/-- The cuts of a sliced union: a union for each bound. -/
def encodeSliceParts : List (List (Term × Term × Term × Term × Bool)) →
    List (Term × Term × Term × Bool) → Encoder (List EncodedCut)
  | [], [] => pure []
  | part :: parts, (s, e, pos, isWrite) :: elseCuts => do
      let s' ← encodeIte (part.map fun p => (p.1, p.2.1)) s
      let e' ← encodeIte (part.map fun p => (p.1, p.2.2.1)) e
      let pos' ← encodeIte (part.map fun p => (p.1, p.2.2.2.1)) pos
      let rest ← encodeSliceParts parts elseCuts
      pure ((s', e', pos', isWrite) :: rest)
  | _, _ => .fail

def encodeSlice : Term → Encoder (EncodingResult × List EncodedCut)
  | .slice term cuts => do
      let cuts' ← encodeCuts cuts
      let term' ← Encoder.encodeTerm term
      pure (term', cuts')
  | .ite branches e => do
      let term' ← encodeIte (branches.map fun b => (b.1, extractTerm b.2)) (extractTerm e)
      match transposeCuts (branches.map fun b => (b.1, extractCuts b.2)) with
      | some parts => do
          let cuts' ← encodeSliceParts parts (extractCuts e)
          pure (term', cuts')
      | none => .fail
  | slice => do
      let term' ← Encoder.encodeTerm slice
      pure (term', [])

/-- The assumptions that `ComputeSliceBounds` adds, from the last cut on. -/
def cutAssumptions (assumptions : List Expr) (cuts : List EncodedCut) : List Expr :=
  cuts.foldr (fun c acc => acc ++ c.1.assumptions ++ c.2.1.assumptions ++ c.2.2.1.assumptions)
    assumptions

/-- `addOneSlice` over the slices; the bits are kept as the arguments they are computed from. -/
def addSlices : Expr × List Expr → List Term → Encoder (Expr × List Expr)
  | acc, [] => pure acc
  | (res, assumptions), slice :: slices => do
      let encoded ← encodeSlice slice
      let part := apply .slice
        (encoded.1.expr :: encoded.2.flatMap fun c => [c.1.expr, c.2.1.expr, c.2.2.1.expr])
      addSlices (res.app part, cutAssumptions (assumptions ++ encoded.1.assumptions) encoded.2)
        slices

def encodeCombine (slices : List Term) (typ : Ty) : Encoder EncodingResult := do
  let result ← addSlices (func (.combine typ), []) slices
  pure ⟨result.1, result.2⟩

/-- The cases of `EncodeExpression`. -/
def encodeOperator (op : Operation) (args : List Term) (typ : Ty) : Encoder EncodingResult :=
  match op with
  | .operator operation => encodeOperation defs operation args typ
  | .application sf => makeOperation (apply (.application sf typ)) args
  | .cast t₁ t₂ => encodeCast defs t₁ t₂ args
  | .combine => encodeCombine args typ

/-! ### Memory readings -/

def generateInstAssumptions (inst : Expr) (typ : Ty) : List Expr :=
  if typ = .address then [mkBVSLE inst (mkBV 0)] else []

/-- The assumptions that `GenerateLengthAssumptions` adds. -/
def lengthAssumptions (expr : Expr) : List Expr :=
  let lengthIsNonNegative := mkBVSGE expr (mkBV 0)
  if defs.maxBufferSize < 0 then [lengthIsNonNegative]
  else [mkBVSLE expr (mkBV defs.maxBufferSize), lengthIsNonNegative]

/-- The assumptions that `GenerateCharAssumptions` adds. -/
def charAssumptions (expr : Expr) : List Expr :=
  if defs.charsArePretty then [apply .bvsgt [expr, mkBV 32], apply .bvslt [expr, mkBV 127]] else []

/-- The assumptions that `StructReading` adds for the flags of a decimal. -/
def decimalAssumptions (expr : Expr) : List Expr :=
  let lowerIsZero := mkEq (apply (.extract 15 0) [expr]) (mkBV 0)
  let exp := apply (.extract 23 16) [expr]
  let expInBound := mkAnd (mkBVUGE exp (mkBV 0)) (mkBVULE exp (mkBV 28))
  let upperIsZero := mkEq (apply (.extract 30 24) [expr]) (mkBV 0)
  [lowerIsZero, expInBound, upperIsZero]

/-- Add assumptions before those of a result. -/
def addAssumptions (assumptions : List Expr) (r : EncodingResult) : EncodingResult :=
  ⟨r.expr, assumptions ++ r.assumptions⟩

/-- `checkOneKey` over the updates, from the last one on. -/
def checkKeys (path : Path) (inst : Expr) (assumptions : List Expr) :
    List Update → Encoder EncodingResult
  | [] => pure ⟨inst, assumptions⟩
  | record :: updates => do
      let acc ← checkKeys path inst assumptions updates
      let recordGuard ← Encoder.encodeTerm (record.guard.getD Term.trueTerm)
      let keysAreMatch ← Encoder.encodeTerm record.matchCondition
      let value ← Encoder.encodeTerm (record.value path)
      pure ⟨mkITE (mkAnd recordGuard.expr keysAreMatch.expr) value.expr acc.expr,
        acc.assumptions ++ recordGuard.assumptions ++ keysAreMatch.assumptions ++ value.assumptions⟩

def memoryReading (inst : List Expr → Expr × List Expr) (path : Path) (reading : Reading) :
    Encoder EncodingResult := do
  let key ← encodeTerms reading.key
  let inRegion ← Encoder.encodeTerm reading.inRegion
  let instance' := inst key.2
  checkKeys path instance'.1 (instance'.2 ++ (inRegion.assumptions ++ key.1)) reading.updates

/-- The value of a region at a key, with its assumptions. -/
def selectInst (reading : Reading) (path : Path) (typ : Ty) (key : List Expr) :
    Expr × List Expr :=
  let expr := apply .select (func (.region reading.sort path) :: key)
  (expr, generateInstAssumptions expr typ)

def defaultValue (typ : Ty) : Expr :=
  if typ = .bool then falseExpr else func (.numeral (.int 0) typ)

/-- The `inst` of `ArrayReading`. -/
def arrayInst (hasDefaultValue : Bool) (reading : Reading) (path : Path) (typ : Ty)
    (key : List Expr) : Expr × List Expr :=
  if hasDefaultValue then (defaultValue typ, []) else selectInst reading path typ key

/-- The assumptions that `HeapReading` adds to a reading of `expr`. -/
def heapReadingAssumptions (reading : Reading) (expr : Expr) : List Expr :=
  if reading.sort = .heapField defs.stringLengthField then lengthAssumptions defs expr else []

def heapReading (reading : Reading) (path : Path) (typ : Ty) : Encoder EncodingResult := do
  type2Sort defs typ
  let res ← memoryReading (selectInst reading path typ) path reading
  pure (addAssumptions (heapReadingAssumptions defs reading res.expr) res)

/-- The assumptions that `ArrayReading` adds to a reading of `expr`. -/
def arrayReadingAssumptions (reading : Reading) (typ : Ty) (expr : Expr) : List Expr :=
  let chars := if typ = .char then charAssumptions defs expr else []
  match reading.sort with
  | .arrayLength _ => lengthAssumptions defs expr ++ chars
  | _ => chars

def arrayReading (hasDefaultValue : Bool) (reading : Reading) (path : Path) (typ : Ty) :
    Encoder EncodingResult := do
  type2Sort defs typ
  let res ← memoryReading (arrayInst hasDefaultValue reading path typ) path reading
  pure (addAssumptions (arrayReadingAssumptions defs reading typ res.expr) res)

def stackBufferReading (reading : Reading) (path : Path) (typ : Ty) : Encoder EncodingResult := do
  type2Sort defs typ
  memoryReading (selectInst reading path typ) path reading

def staticsReading (sort : RegionSort) (key : Ty) (value : Option Term) (path : Path) (typ : Ty) :
    Encoder EncodingResult :=
  match value with
  | some value => Encoder.encodeTerm value
  | none => do
      type2Sort defs typ
      pure ⟨apply .select [func (.region sort path), func (.staticKey key)], []⟩

/-- The assumptions that `StructReading` adds to a reading of `expr`. -/
def structReadingAssumptions (field : FieldId) (expr : Expr) : List Expr :=
  if field.declaringType = defs.decimalType ∧ field.name = "_flags" then decimalAssumptions expr
  else []

/-- `EncodeMemoryAccessConstant`, for the constant of a source. -/
def encodeMemoryAccessConstant (name : Source) :
    SourceKind → Path → Ty → Encoder EncodingResult
  | .heapReading reading, path, typ => heapReading defs reading path typ
  | .arrayIndexReading hasDefaultValue reading, path, typ
  | .vectorIndexReading hasDefaultValue reading, path, typ =>
    arrayReading defs hasDefaultValue reading path typ
  | .stackBufferReading reading, path, typ => stackBufferReading defs reading path typ
  | .staticsReading sort key value, path, typ => staticsReading defs sort key value path typ
  | .structFieldSource source field, path, typ => do
      let res ← encodeMemoryAccessConstant name source (.structField field :: path) typ
      pure (addAssumptions (structReadingAssumptions defs field res.expr) res)
  | .heapAddressSource source, path, _ => encodeMemoryAccessConstant name source path .address
  | .pointerAddressSource source, path, _ =>
    encodeMemoryAccessConstant name source (.pointerAddress :: path) .address
  | .pointerOffsetSource source, path, _ =>
    encodeMemoryAccessConstant name source (.pointerOffset :: path) .int32
  | .other, _, typ => createConstant defs name typ

def encodeConstant (source : Source) (typ : Ty) : Encoder EncodingResult :=
  encodeMemoryAccessConstant defs source (defs.source source) [] typ

/-! ### Terms -/

/-- The cases of `EncodeTerm`. -/
def encodeCases : Term → Encoder EncodingResult
  | .concrete obj typ => encodeConcrete defs obj typ
  | .constant source typ => encodeConstant defs source typ
  | .expression op args typ => encodeOperator defs op args typ
  | .heapRef address _ => Encoder.encodeTerm address
  | .ite branches elseValue => encodeIte branches elseValue
  | _ => .fail

/-- What `AddEnumAssumptions` adds, for a term whose type is an enumeration. -/
def enumAssumptions (t : Term) (expr : Expr) : List Expr :=
  match (defs.typeOf t).bind fun typ => (defs.enumValues typ).map fun values => (typ, values) with
  | some (typ, values) => [enumAssumption typ values expr]
  | none => []

/-- What `EncodeTerm` does with the result of its cases. -/
def completeResult (t : Term) (r : EncodingResult) : Option EncodingResult :=
  (defs.typeOf t).map fun _ =>
    ⟨r.expr, simplifyAndElements (enumAssumptions defs t r.expr ++ r.assumptions)⟩

end

/-! ### The cache -/

/-- The results of the terms encoded so far. -/
abbrev Cache := Pdict Term EncodingResult

def Cache.get (t : Term) (encoder : Cache → Option (EncodingResult × Cache)) (c : Cache) :
    Option (EncodingResult × Cache) :=
  match PersistentDict.tryFind c t with
  | some r => some (r, c)
  | none => (encoder c).map fun r => (r.1, Dictionary.set t r.1 r.2)

/-- An expression is looked up, and stored, once more in `EncodeExpression`. -/
def encodeCasesIn (defs : Definitions) (h : Term → Cache → Option (EncodingResult × Cache))
    (t : Term) : Cache → Option (EncodingResult × Cache) :=
  match t with
  | .expression .. => Cache.get t ((encodeCases defs t).exec h)
  | _ => (encodeCases defs t).exec h

/-- `EncodeTerm`, with fewer than the given number of nested calls. -/
def encodeTerm (defs : Definitions) : ℕ → Term → Cache → Option (EncodingResult × Cache)
  | 0, _ => fun _ => none
  | n + 1, t => Cache.get t fun c => do
      let r ← encodeCasesIn defs (encodeTerm defs n) t c
      let result ← completeResult defs t r.1
      some (result, r.2)

end VSharp.Encoding
