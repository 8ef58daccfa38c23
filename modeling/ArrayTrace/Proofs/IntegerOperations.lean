import ArrayTrace.Proofs.Emission
import ArrayTrace.Proofs.IntegerCode
import ArrayTrace.Proofs.Legibility
import ArrayTrace.Proofs.Scalars

/-!
# Operations on integers

The expression written for an operation on integers and Booleans has the value of the scalar
function of the operation. Integers are represented by expressions of type `int64_t`, Booleans
by expressions of a smaller type whose value is 0 or 1; every conversion and every operation
keeps to this.

## Main definitions

* `Represents` — what the expression for a scalar has to be like.
* `Op.isIntegral` — elementwise operations on integers and Booleans, other than remainders.
-/

namespace ArrayTrace

/-- The element as a stored number, if it is an integer or a Boolean. -/
def Scalar.stored? : Scalar → Option C.Value
  | ⟨.i64, a⟩ => some ⟨.long, a.toInt⟩
  | ⟨.bool, p⟩ => some ⟨.byte, C.truth p⟩
  | ⟨.f64, _⟩ | ⟨.f32, _⟩ => none

namespace C
variable {S : Surroundings} {e x y c : Expr} {a b : Int64} {p q : Bool}

/-! ## Representation of scalars -/

/-- Value and type of an expression that stands for a scalar. -/
def Holds (S : Surroundings) (e : Expr) : Scalar → Prop
  | ⟨.i64, a⟩ => e.eval? S = some a.toInt ∧ e.type? S = some .long
  | ⟨.bool, p⟩ => e.eval? S = some (truth p) ∧ ∃ type ≠ .long, e.type? S = some type
  | ⟨.f64, _⟩ | ⟨.f32, _⟩ => False

/-- An expression that stands for a scalar, and that can be an operand as it is. -/
structure Represents (S : Surroundings) (e : Expr) (x : Scalar) : Prop where
  level_eq : e.level = 8
  legible : e.Legible
  holds : Holds S e x

theorem Holds.isFloat_eq {x : Scalar} (h : Holds S e x) : x.dtype.isFloat = false := by
  obtain ⟨d, x⟩ := x
  cases d <;> first | rfl | cases h

theorem Holds.eval?_eq {x : Scalar} (h : Holds S e x) : e.eval? S = x.stored?.map Value.n := by
  obtain ⟨d, x⟩ := x
  cases d <;> first | exact h.1 | cases h

theorem legible_group {op : BinOp} (hx : x.level = 8) (hy : y.level = 8) (hxl : x.Legible)
    (hyl : y.Legible) : (Expr.group op x y).Legible :=
  have hlevel : op.level < 8 := Nat.lt_succ_of_lt op.level_lt
  ⟨⟨hx ▸ Nat.le_of_lt hlevel, hy ▸ hlevel⟩, hxl, hyl⟩

/-- A group of two integers or Booleans. -/
theorem represents_group {op : BinOp} {v : Scalar} (hx : x.level = 8 ∧ x.Legible)
    (hy : y.level = 8 ∧ y.Legible) (h : Holds S (.bin op x y) v) :
    Represents S (.group op x y) v where
  level_eq := rfl
  legible := legible_group hx.1 hy.1 hx.2 hy.2
  holds := by
    obtain ⟨d, v⟩ := v
    cases d <;> exact h

theorem represents_convert {x : Scalar} (h : Represents S e x) {d : DType}
    (hd : d.isFloat = false) : Represents S (e.convert x.dtype d) ⟨d, x.as d⟩ := by
  obtain ⟨s, x⟩ := x
  obtain ⟨hlevel, hlegible, hholds⟩ := h
  cases s with
  | i64 =>
    cases d with
    | i64 => exact ⟨hlevel, hlegible, hholds⟩
    | bool =>
      obtain ⟨heval, htype⟩ := hholds
      refine represents_group ⟨rfl, hlegible⟩ ⟨rfl, trivial⟩ ⟨?_, .int, by decide, ?_⟩
      · simp [Expr.eval?, Expr.type?, heval, htype, BinOp.compute?, Scalar.as, DType.convert,
          DType.ofInt64, bne, beq_eq_decide]
      · simp [Expr.type?, htype, BinOp.type]
    | _ => cases hd
  | bool =>
    cases d with
    | i64 =>
      obtain ⟨heval, htype⟩ := hholds
      refine ⟨rfl, ⟨Nat.le_succ 7, hlegible⟩, ?_, rfl⟩
      cases x <;> simp [Expr.convert, Expr.eval?, heval, IntType.ofDType?] <;> rfl
    | bool => exact ⟨hlevel, hlegible, hholds⟩
    | _ => cases hd
  | _ => cases hholds

/-! ## Integers -/

theorem wrap_sub (a b : Int64) : IntType.long.wrap (a.toInt - b.toInt) = (a - b).toInt :=
  (Int64.toInt_sub a b).symm

theorem wrap_mul (a b : Int64) : IntType.long.wrap (a.toInt * b.toInt) = (a * b).toInt :=
  (Int64.toInt_mul a b).symm

theorem wrap_neg (a : Int64) : IntType.long.wrap (-a.toInt) = (-a).toInt :=
  (Int64.toInt_neg a).symm

theorem call?_pickInt (name : String) (op : BinOp) (a b : Int64) {p : Bool}
    (hstrict : op.isStrict = true) (hop : op.compute? .long a.toInt b.toInt = some (truth p)) :
    (pickInt name op).call? [a.toInt, b.toInt] = some (if p then a else b).toInt := by
  rw [call?_eq rfl rfl]
  cases p <;>
    simp [pickInt, Helper.locals, List.lookup_cons, Stmt.exec?, Expr.eval?_bin hstrict, Expr.eval?,
      Expr.type?, Locals.surroundings, IntType.common, hop]

/-- A choice by comparison does not depend on which of two numbers is asked about first, when
it makes no difference between equal ones. -/
theorem ite_lt_comm {a b x y : Int64} (h : a = b → x = y) :
    (if b < a then x else y) = if a < b then y else x := by
  by_cases hab : a < b <;> by_cases hba : b < a <;> simp only [hab, hba, if_true, if_false]
  · exact absurd (Int64.lt_trans hab hba) Int64.lt_irrefl
  · exact (h (Int64.le_antisymm (Int64.not_lt.1 hba) (Int64.not_lt.1 hab))).symm

theorem call?_maxInt (a b : Int64) :
    (pickInt "wj_max_i64" .gt).call? [a.toInt, b.toInt] =
      some (if a < b then b else a).toInt := by
  have hop : BinOp.gt.compute? .long a.toInt b.toInt = some (truth (decide (b < a))) := by
    simp [BinOp.compute?, Int64.lt_iff_toInt_lt]
  rw [call?_pickInt _ _ a b rfl hop, ← ite_lt_comm id]
  simp

theorem call?_minInt (a b : Int64) :
    (pickInt "wj_min_i64" .lt).call? [a.toInt, b.toInt] =
      some (if b < a then b else a).toInt := by
  have hop : BinOp.lt.compute? .long a.toInt b.toInt = some (truth (decide (a < b))) := by
    simp [BinOp.compute?, Int64.lt_iff_toInt_lt]
  rw [call?_pickInt _ _ a b rfl hop, ← ite_lt_comm Eq.symm]
  simp

theorem call?_absInt (a : Int64) :
    absInt.call? [a.toInt] = some (if a < 0 then -a else a).toInt := by
  rw [call?_eq rfl rfl]
  by_cases h : a < 0 <;>
    simp [absInt, Helper.locals, Stmt.exec?, Expr.eval?, Expr.type?, Locals.surroundings,
      BinOp.compute?, IntType.common, wrap_neg, h, -Int64.toInt_neg]

/-! ## Binary operations -/

/-- Value and type of an operation on two integers. -/
theorem eval?_bin_long {op : BinOp} {n : Int} (hx : Holds S x ⟨.i64, a⟩) (hy : Holds S y ⟨.i64, b⟩)
    (hstrict : op.isStrict = true) (hop : op.compute? .long a.toInt b.toInt = some n) :
    (Expr.bin op x y).eval? S = some n ∧
      (Expr.bin op x y).type? S = some (op.type .long .long) := by
  obtain ⟨hxeval, hxtype⟩ := hx
  obtain ⟨hyeval, hytype⟩ := hy
  constructor
  · rw [Expr.eval?_bin hstrict, hxeval, hxtype, hyeval, hytype]
    exact hop
  · rw [Expr.type?, hxtype, hytype]
    rfl

/-- Two integers combined by an operator of the language. -/
theorem represents_int {op : BinOp} {r : Int64}
    (hx : Represents S x ⟨.i64, a⟩) (hy : Represents S y ⟨.i64, b⟩) (hstrict : op.isStrict = true)
    (htype : op.type .long .long = .long)
    (hop : op.compute? .long a.toInt b.toInt = some r.toInt) :
    Represents S (.group op x y) ⟨.i64, r⟩ := by
  have h := eval?_bin_long hx.holds hy.holds hstrict hop
  rw [htype] at h
  exact represents_group ⟨hx.level_eq, hx.legible⟩ ⟨hy.level_eq, hy.legible⟩ h

/-- Two integers compared by an operator of the language. -/
theorem represents_comparison {op : BinOp} {r : Bool}
    (hx : Represents S x ⟨.i64, a⟩) (hy : Represents S y ⟨.i64, b⟩) (hstrict : op.isStrict = true)
    (htype : op.type .long .long = .int)
    (hop : op.compute? .long a.toInt b.toInt = some (truth r)) :
    Represents S (.group op x y) ⟨.bool, r⟩ := by
  obtain ⟨heval, htype'⟩ := eval?_bin_long hx.holds hy.holds hstrict hop
  rw [htype] at htype'
  exact represents_group ⟨hx.level_eq, hx.legible⟩ ⟨hy.level_eq, hy.legible⟩
    ⟨heval, .int, by decide, htype'⟩

/-- A function called with two integers. -/
theorem represents_call₂ {name : String} {f : List Int → Option Int} {r : Int64}
    (hname : isName name = true) (hf : S.function? name = some ⟨.long, f⟩)
    (hx : Represents S x ⟨.i64, a⟩) (hy : Represents S y ⟨.i64, b⟩)
    (hr : f [a.toInt, b.toInt] = some r.toInt) : Represents S (.call₂ name x y) ⟨.i64, r⟩ := by
  refine ⟨rfl, ⟨hname, hx.legible, hy.legible⟩, ?_, ?_⟩
  · simp [Expr.eval?, hf, hx.holds.1, hy.holds.1, hr]
  · simp [Expr.type?, hf]

end C

open C

/-- Binary operations on integers and Booleans, other than remainders. -/
def BinaryOp.isIntegral : BinaryOp → Bool
  | div | pow | modulo => false
  | _ => true

/-- Unary operations on integers and Booleans. -/
def UnaryOp.isIntegral : UnaryOp → Bool
  | neg | abs | floor | ceil | not => true
  | _ => false

variable {S : Surroundings} {x y : Expr} {a b : Int64} {p q : Bool}

theorem represents_onInt64 (hS : S.function? = helper?) {op : BinaryOp}
    (hop : op.isIntegral = true) (hkind : op.kind = .arithmetic)
    (hx : Represents S x ⟨.i64, a⟩) (hy : Represents S y ⟨.i64, b⟩) :
    ∃ f, op.onInt64 = some f ∧ Represents S (Emit.binaryOn op x y .i64) ⟨.i64, f a b⟩ := by
  cases op with
  | add => exact ⟨_, rfl, represents_int hx hy rfl rfl (congrArg some (wrap_add a b))⟩
  | sub => exact ⟨_, rfl, represents_int hx hy rfl rfl (congrArg some (wrap_sub a b))⟩
  | mul => exact ⟨_, rfl, represents_int hx hy rfl rfl (congrArg some (wrap_mul a b))⟩
  | max => exact ⟨_, rfl, represents_call₂ (by decide) (by rw [hS]; rfl) hx hy (call?_maxInt a b)⟩
  | min => exact ⟨_, rfl, represents_call₂ (by decide) (by rw [hS]; rfl) hx hy (call?_minInt a b)⟩
  | div | pow | modulo => cases hop
  | _ => cases hkind

theorem represents_compare {op : BinaryOp} (hkind : op.kind = .comparison)
    (hx : Represents S x ⟨.i64, a⟩) (hy : Represents S y ⟨.i64, b⟩) (out : DType) :
    ∃ f, op.compare .i64 = some f ∧ Represents S (Emit.binaryOn op x y out) ⟨.bool, f a b⟩ := by
  cases op with
  | equal =>
    exact ⟨_, rfl, represents_comparison hx hy rfl rfl
      (by simp [BinOp.compute?, beq_eq_decide, Int64.toInt_inj])⟩
  | notEqual =>
    exact ⟨_, rfl, represents_comparison hx hy rfl rfl
      (by simp [BinOp.compute?, bne, beq_eq_decide, Int64.toInt_inj])⟩
  | less | lessOrEqual | greater | greaterOrEqual =>
    exact ⟨_, rfl, represents_comparison hx hy rfl rfl
      (by simp [BinOp.compute?, Int64.lt_iff_toInt_lt, Int64.le_iff_toInt_le])⟩
  | _ => cases hkind

theorem represents_logic {op : BinaryOp} (hkind : op.kind = .logical)
    (hx : Represents S x ⟨.bool, p⟩) (hy : Represents S y ⟨.bool, q⟩) (out : DType) :
    ∃ f, op.logic = some f ∧ Represents S (Emit.binaryOn op x y out) ⟨.bool, f p q⟩ := by
  obtain ⟨hxeval, s, -, hxtype⟩ := hx.holds
  obtain ⟨hyeval, t, -, hytype⟩ := hy.holds
  cases op with
  | and | or | xor =>
    refine ⟨_, rfl, represents_group ⟨hx.level_eq, hx.legible⟩ ⟨hy.level_eq, hy.legible⟩
      ⟨?_, .int, by decide, ?_⟩⟩
    · cases p <;> cases q <;>
        simp [Expr.eval?, hxeval, hyeval, hxtype, hytype, BinOp.compute?, truth]
    · simp [Expr.type?, hxtype, hytype, BinOp.type]
  | _ => cases hkind

section
variable {u v w : Scalar} {e f c : Expr} {d preferred : DType}

theorem eq_i64_of_arithmetic (hd : d.arithmetic.isFloat = false) : d.arithmetic = .i64 := by
  cases d <;> first | rfl | cases hd

theorem eq_i64_of_binaryDType {op : BinaryOp} {a b : DType} (hop : op.isIntegral = true)
    (hkind : op.kind = .arithmetic) (hfloat : (Op.binaryDType op a b preferred).isFloat = false) :
    Op.binaryDType op a b preferred = .i64 := by
  cases op with
  | add | sub | mul | max | min => exact eq_i64_of_arithmetic hfloat
  | div | pow | modulo => cases hop
  | _ => cases hkind

theorem eq_i64_of_unaryDType {op : UnaryOp} {a : DType} (hop : op = .neg ∨ op = .abs)
    (hfloat : (Op.unaryDType op a preferred).isFloat = false) :
    Op.unaryDType op a preferred = .i64 := by
  rcases hop with rfl | rfl <;> exact eq_i64_of_arithmetic hfloat

theorem Op.scalar?_comparison {op : BinaryOp} {common : DType} (hkind : op.kind = .comparison)
    (hcommon : DType.comparison u.dtype v.dtype = common) :
    (binary op).scalar? [u, v] d =
      (op.compare common).map fun g => ⟨.bool, g (u.as common) (v.as common)⟩ := by
  subst hcommon
  rw [scalar?, hkind]

theorem represents_binary (hS : S.function? = helper?) {op : BinaryOp}
    (hop : op.isIntegral = true) (hu : Represents S e u) (hv : Represents S f v)
    (hd : Op.binaryDType op u.dtype v.dtype preferred = d) (hfloat : d.isFloat = false) :
    ∃ r, (Op.binary op).scalar? [u, v] d = some r ∧ r.dtype = d ∧
      Represents S (Emit.binary op (e, u.dtype) (f, v.dtype) d) r := by
  subst hd
  cases hkind : op.kind with
  | arithmetic =>
    obtain ⟨g, hg, hr⟩ :=
      represents_onInt64 hS hop hkind (represents_convert hu rfl) (represents_convert hv rfl)
    rw [eq_i64_of_binaryDType hop hkind hfloat]
    refine ⟨⟨.i64, g (u.as .i64) (v.as .i64)⟩, ?_, rfl, ?_⟩
    · rw [Op.scalar?, hkind]
      exact congrArg (Option.map _) hg
    · rw [Emit.binary, Emit.operandDType, hkind]
      exact hr
  | comparison =>
    have hcommon : DType.comparison u.dtype v.dtype = .i64 := by
      simp [DType.comparison, hu.holds.isFloat_eq, hv.holds.isFloat_eq]
    have hbool : Op.binaryDType op u.dtype v.dtype preferred = .bool := by
      simp [Op.binaryDType, hkind]
    obtain ⟨g, hg, hr⟩ :=
      represents_compare hkind (represents_convert hu rfl) (represents_convert hv rfl) .bool
    refine ⟨⟨.bool, g (u.as .i64) (v.as .i64)⟩, ?_, hbool.symm, ?_⟩
    · rw [Op.scalar?_comparison hkind hcommon, hg]
      rfl
    · rw [hbool, Emit.binary, Emit.operandDType, hkind]
      simp only [hcommon]
      exact hr
  | logical =>
    have hbool : Op.binaryDType op u.dtype v.dtype preferred = .bool := by
      simp [Op.binaryDType, hkind]
    obtain ⟨g, hg, hr⟩ :=
      represents_logic hkind (represents_convert hu rfl) (represents_convert hv rfl) .bool
    refine ⟨⟨.bool, g (u.as .bool) (v.as .bool)⟩, ?_, hbool.symm, ?_⟩
    · rw [Op.scalar?, hkind, hg]
      rfl
    · rw [hbool, Emit.binary, Emit.operandDType, hkind]
      exact hr

theorem represents_neg (hu : Represents S e ⟨.i64, a⟩) :
    Represents S (.paren (.neg e)) ⟨.i64, -a⟩ := by
  obtain ⟨hlevel, hlegible, heval, htype⟩ := hu
  refine ⟨rfl, ⟨hlevel, hlegible⟩, ?_, ?_⟩
  · simp [Expr.eval?, heval, htype, IntType.common, wrap_neg, -Int64.toInt_neg]
  · simp [Expr.type?, htype, IntType.common]

theorem represents_not (hu : Represents S e ⟨.bool, p⟩) :
    Represents S (.paren (.not e)) ⟨.bool, !p⟩ := by
  obtain ⟨hlevel, hlegible, heval, t, -, htype⟩ := hu
  refine ⟨rfl, ⟨hlevel, hlegible⟩, ?_, .int, by decide, ?_⟩
  · simp [Expr.eval?, heval]
  · simp [Expr.type?, htype]

theorem represents_abs (hS : S.function? = helper?) (hu : Represents S e ⟨.i64, a⟩) :
    Represents S (.call "wj_abs_i64" e) ⟨.i64, if a < 0 then -a else a⟩ := by
  have hhelper : S.function? "wj_abs_i64" = some ⟨.long, absInt.call?⟩ := by rw [hS]; rfl
  refine ⟨rfl, ⟨by decide, hu.legible⟩, ?_, ?_⟩
  · simp [Expr.eval?, hhelper, hu.holds.1, call?_absInt]
  · simp [Expr.type?, hhelper]

theorem represents_unary (hS : S.function? = helper?) {op : UnaryOp}
    (hop : op.isIntegral = true) (hu : Represents S e u)
    (hd : Op.unaryDType op u.dtype preferred = d) (hfloat : d.isFloat = false) :
    ∃ r, (Op.unary op).scalar? [u] d = some r ∧ r.dtype = d ∧
      Represents S (Emit.unary op (e, u.dtype) d) r := by
  cases op with
  | neg =>
    obtain rfl : .i64 = d := (eq_i64_of_unaryDType (.inl rfl) (hd ▸ hfloat)).symm.trans hd
    exact ⟨_, rfl, rfl, represents_neg (represents_convert hu rfl)⟩
  | abs =>
    obtain rfl : .i64 = d := (eq_i64_of_unaryDType (.inr rfl) (hd ▸ hfloat)).symm.trans hd
    exact ⟨_, rfl, rfl, represents_abs hS (represents_convert hu rfl)⟩
  | floor | ceil =>
    obtain rfl : u.dtype = d := hd
    have hr := represents_convert hu hfloat
    obtain ⟨d, u⟩ := u
    cases d with
    | i64 | bool => exact ⟨_, rfl, rfl, hr⟩
    | _ => cases hfloat
  | not =>
    obtain rfl : .bool = d := hd
    exact ⟨_, rfl, rfl, represents_not (represents_convert hu rfl)⟩
  | _ => cases hop

theorem represents_choice (hc : Represents S c w) (hu : Represents S e u)
    (hv : Represents S f v) (hfloat : d.isFloat = false) :
    Represents S (Emit.choice (c, w.dtype) (e, u.dtype) (f, v.dtype) d)
      ⟨d, if w.as .bool then u.as d else v.as d⟩ := by
  obtain ⟨hclevel, hclegible, hceval, -⟩ := represents_convert hc (d := .bool) rfl
  obtain ⟨hulevel, hulegible, hu⟩ := represents_convert hu hfloat
  obtain ⟨hvlevel, hvlegible, hv⟩ := represents_convert hv hfloat
  refine ⟨rfl, ⟨by rw [hclevel]; decide, hclegible, hulegible, hvlegible⟩, ?_⟩
  cases d with
  | i64 =>
    refine ⟨?_, ?_⟩
    · cases hw : w.as .bool <;> simp [Emit.choice, Expr.eval?, hceval, hu.1, hv.1, hw, truth]
    · simp [Emit.choice, Expr.type?, hu.2, hv.2, IntType.common]
  | bool =>
    obtain ⟨hueval, s, hs, hutype⟩ := hu
    obtain ⟨hveval, t, ht, hvtype⟩ := hv
    refine ⟨?_, .int, by decide, ?_⟩
    · cases hw : w.as .bool <;> simp [Emit.choice, Expr.eval?, hceval, hueval, hveval, hw, truth]
    · simp [Emit.choice, Expr.type?, hutype, hvtype, IntType.common, hs, ht]
  | _ => cases hfloat

/-- Elementwise operations on integers and Booleans, other than remainders. -/
def Op.isIntegral : Op → Bool
  | binary op => op.isIntegral
  | unary op => op.isIntegral
  | cast _ | choose => true
  | _ => false

/-- The expression for an operation stands for the value of its scalar function when the
arguments stand for the operands. -/
theorem represents_operation (hS : S.function? = helper?) {op : Op} (hop : op.isIntegral = true)
    {args : List (Expr × DType)} {vs : List Scalar} {types : List TensorType} {type : TensorType}
    (hargs : List.Forall₂ (fun a v => a.2 = v.dtype ∧ Represents S a.1 v) args vs)
    (htypes : types.map TensorType.dtype = vs.map Scalar.dtype)
    (hinfer : op.infer types preferred = .ok type) (hfloat : type.dtype.isFloat = false) :
    ∃ e r, Emit.operation? op args type.dtype = some e ∧ op.scalar? vs type.dtype = some r ∧
      r.dtype = type.dtype ∧ Represents S e r := by
  have hlen : ∀ k, op.operandCount? = some k → vs.length = k := fun k hk => by
    rw [← Op.length_of_infer hinfer hk]
    simpa using (congrArg List.length htypes).symm
  cases op with
  | binary op =>
    obtain ⟨u, v, rfl⟩ := List.length_eq_two.1 (hlen 2 rfl)
    obtain ⟨x, y, rfl⟩ := List.length_eq_two.1 (Op.length_of_infer hinfer (k := 2) rfl)
    obtain ⟨s, -, rfl⟩ := Op.infer_binary_eq_ok hinfer
    obtain ⟨hx, hy⟩ : x.dtype = u.dtype ∧ y.dtype = v.dtype := by simpa using htypes
    obtain _ | @⟨⟨e, _⟩, _, _, _, ⟨rfl, hu⟩, _ | @⟨⟨f, _⟩, _, _, _, ⟨rfl, hv⟩, _ | _⟩⟩ := hargs
    obtain ⟨r, hr⟩ := represents_binary hS hop hu hv (by rw [hx, hy]) hfloat
    exact ⟨_, r, rfl, hr⟩
  | unary op =>
    obtain ⟨u, rfl⟩ := List.length_eq_one_iff.1 (hlen 1 rfl)
    obtain ⟨x, rfl⟩ := List.length_eq_one_iff.1 (Op.length_of_infer hinfer (k := 1) rfl)
    cases hinfer
    have hx : x.dtype = u.dtype := by simpa using htypes
    obtain _ | @⟨⟨e, _⟩, _, _, _, ⟨rfl, hu⟩, _ | _⟩ := hargs
    obtain ⟨r, hr⟩ := represents_unary hS hop hu (by rw [hx]) hfloat
    exact ⟨_, r, rfl, hr⟩
  | cast d =>
    obtain ⟨u, rfl⟩ := List.length_eq_one_iff.1 (hlen 1 rfl)
    obtain ⟨x, rfl⟩ := List.length_eq_one_iff.1 (Op.length_of_infer hinfer (k := 1) rfl)
    cases hinfer
    obtain _ | @⟨⟨e, _⟩, _, _, _, ⟨rfl, hu⟩, _ | _⟩ := hargs
    exact ⟨_, _, rfl, rfl, rfl, represents_convert hu hfloat⟩
  | choose =>
    obtain ⟨w, u, v, rfl⟩ := List.length_eq_three.1 (hlen 3 rfl)
    obtain _ | @⟨⟨c, _⟩, _, _, _, ⟨rfl, hw⟩, _ | @⟨⟨e, _⟩, _, _, _, ⟨rfl, hu⟩,
      _ | @⟨⟨f, _⟩, _, _, _, ⟨rfl, hv⟩, _ | _⟩⟩⟩ := hargs
    exact ⟨_, _, rfl, rfl, rfl, represents_choice hw hu hv hfloat⟩
  | _ => cases hop

end

end ArrayTrace
