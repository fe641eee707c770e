import Mathlib.Algebra.Group.Nat.Defs
import Mathlib.Algebra.Ring.Int.Defs
import NestedIR.Pass.Folding
import NestedIR.Proofs.Context.Definitions
import NestedIR.Proofs.Dialect.IntegerWidth

/-! Folding computes the signed number that stands for a sum of constants in its width. -/

namespace NestedIR

/-- The signed number of a width that differs from an exact one by a multiple of the modulus. -/
structure SignedForm (width : Nat) (exact number : Int) : Prop where
  /-- The number is not too small for the width. -/
  le : -2 ^ (width - 1) ≤ number
  /-- The number is not too large for the width. -/
  lt : number < 2 ^ (width - 1)
  /-- The low bits agree. -/
  dvd : (2 : Int) ^ width ∣ number - exact

/-- The signed form is the balanced remainder. -/
theorem signedForm_iff {width : Nat} (positive : 1 ≤ width) {exact number : Int} :
    SignedForm width exact number ↔ number = exact.bmod (2 ^ width) := by
  -- The bounds of the signed form are halves of the modulus.
  obtain ⟨less, rfl⟩ : ∃ less, width = less + 1 := ⟨width - 1, by omega⟩
  have half : (2 : Int) ^ (less + 1) = 2 * 2 ^ less := Int.pow_succ' 2 less
  have power : 0 < 2 ^ (less + 1) := Nat.two_pow_pos _
  rw [eq_comm, Int.bmod_eq_iff power]
  push_cast
  constructor
  · intro form
    obtain ⟨le, lt, dvd⟩ := form
    simp only [Nat.add_sub_cancel] at le lt
    exact ⟨by omega, by omega, dvd⟩
  · intro remainder
    obtain ⟨le, lt, dvd⟩ := remainder
    refine ⟨?_, ?_, dvd⟩ <;> simp only [Nat.add_sub_cancel] <;> omega

/-- Shifting up and down again leaves the balanced remainder for the width. -/
theorem toInt_signExtend {width : Nat} (positive : 1 ≤ width) (bounded : width ≤ 64)
    (value : Int64) : (signExtend value width).toInt = value.toInt.bmod (2 ^ width) := by
  -- The shift is below the number of bits, so that no part of it is lost.
  have small : ∀ shift < 64, ((BitVec.ofNat 64 shift).smod 64).toNat = shift := by decide
  obtain ⟨shift, split⟩ : ∃ shift, 64 - width = shift := ⟨_, rfl⟩
  have shifted : (signExtend value width).toInt = (value.toBitVec <<< shift).toInt >>> shift := by
    show ((value.toBitVec <<< (BitVec.ofNat 64 (64 - width)).smod 64).sshiftRight'
      ((BitVec.ofNat 64 (64 - width)).smod 64)).toInt = _
    rw [BitVec.toInt_sshiftRight', BitVec.shiftLeft_eq', split, small shift (by omega)]
  have powers : 2 ^ 64 = 2 ^ shift * 2 ^ width := by
    rw [← Nat.pow_add]
    congr 1
    omega
  have even : 2 ∣ 2 ^ width := ⟨2 ^ (width - 1), by rw [← Nat.pow_succ']; congr 1; omega⟩
  have up : (value.toBitVec <<< shift).toInt =
      (2 ^ shift : Nat) * (value.toBitVec.toNat : Int).bmod (2 ^ width) := by
    rw [BitVec.toInt_shiftLeft, Nat.shiftLeft_eq, powers, Nat.mul_comm, Int.natCast_mul]
    exact Int.mod_bmod_mul_of_pos _ _ (Nat.two_pow_pos shift) even
  have low : value.toInt.bmod (2 ^ width) = (value.toBitVec.toNat : Int).bmod (2 ^ width) := by
    rw [← Int64.toInt_toBitVec, BitVec.toInt_eq_toNat_bmod, Int.bmod_bmod_of_dvd]
    exact powers ▸ Nat.dvd_mul_left _ _
  rw [shifted, up, low, Int.shiftRight_eq_div_pow]
  exact Int.mul_ediv_cancel_left _ (Int.natCast_ne_zero.mpr (Nat.ne_of_gt (Nat.two_pow_pos shift)))

/-- The width of an integer type is from 1 to 64. -/
theorem integerWidth?_bounds {types : TypeTable} {type : TypeId} {width : Nat}
    (typed : types.integerWidth? type = some width) : 1 ≤ width ∧ width ≤ 64 := by
  obtain ⟨data, -, named⟩ := Option.bind_eq_some_iff.mp typed
  exact (TypeData.integerWidth?_eq_some_iff.mp named).2.2.2

/-- A folded sum is the signed form of the exact one, also where the sum wraps around. -/
theorem signedForm_signExtend_add {width : Nat} (positive : 1 ≤ width) (bounded : width ≤ 64)
    (left right : Int64) :
    SignedForm width (left.toInt + right.toInt) (signExtend (left + right) width).toInt := by
  rw [signedForm_iff positive, toInt_signExtend positive bounded, Int64.toInt_add]
  -- Wrapping around at 64 bits changes the sum by a multiple of what the width wraps around at.
  exact Int.bmod_bmod_of_dvd (Nat.pow_dvd_pow 2 bounded)

/-- A number that fits in a width stays as it is. -/
theorem signExtend_eq_self {width : Nat} (positive : 1 ≤ width) (bounded : width ≤ 64)
    {value : Int64} (le : -2 ^ (width - 1) ≤ value.toInt) (lt : value.toInt < 2 ^ (width - 1)) :
    signExtend value width = value := by
  -- It is its own signed form, and there is no other.
  have own : SignedForm width value.toInt value.toInt := ⟨le, lt, by simp⟩
  rw [← Int64.toInt_inj, toInt_signExtend positive bounded]
  exact ((signedForm_iff positive).mp own).symm

/--
A sum that is folded in the width of an integer type is the signed form of the exact sum.

It is the only number of the width that differs from the exact sum by a multiple of the modulus,
also where the sum wraps around at 64 bits and where its sides do not fit in the width. The shift is
by less than the number of bits, and it leaves a number alone that fits in the width already.
-/
theorem signedForm_of_integerWidth? {types : TypeTable} {type : TypeId} {width : Nat}
    (typed : types.integerWidth? type = some width) :
    (0 ≤ 64 - (width : Int) ∧ 64 - (width : Int) ≤ 63) ∧
      (∀ (left right : Int64) (number : Int),
        SignedForm width (left.toInt + right.toInt) number ↔
          number = (signExtend (left + right) width).toInt) ∧
      ∀ value : Int64, -2 ^ (width - 1) ≤ value.toInt → value.toInt < 2 ^ (width - 1) →
        signExtend value width = value := by
  obtain ⟨positive, bounded⟩ := integerWidth?_bounds typed
  refine ⟨by omega, fun left right number => ⟨fun form => ?_, fun same => ?_⟩,
    fun value => signExtend_eq_self positive bounded⟩
  · -- Both numbers are the one balanced remainder.
    have folded := signedForm_signExtend_add positive bounded left right
    rw [(signedForm_iff positive).mp form, (signedForm_iff positive).mp folded]
  · exact same ▸ signedForm_signExtend_add positive bounded left right

/-- The largest number plus a thousand wraps around at 64 bits and leaves -25 in 8 bits. -/
theorem signedForm_of_integerWidth?_wrapsTwice :
    ∃ ctx, Context.build [.internType (.integer 8)] = .ok ctx ∧
      ctx.types.integerWidth? ⟨0⟩ = some 8 ∧
      (∀ number, SignedForm 8 (Int64.maxValue.toInt + (1000 : Int64).toInt) number ↔
        number = -25) ∧
      (-2 ^ 7 ≤ (-128 : Int64).toInt ∧ (-128 : Int64).toInt < 2 ^ 7) ∧
      signExtend (-128) 8 = -128 := by
  -- The width is read back from the type that was recorded.
  obtain ⟨ctx, built, typed⟩ : ∃ ctx, Context.build [.internType (.integer 8)] = .ok ctx ∧
      ctx.types.integerWidth? ⟨0⟩ = some 8 := ⟨_, rfl, by decide +kernel⟩
  obtain ⟨-, forms, leaves⟩ := signedForm_of_integerWidth? typed
  have fits : -2 ^ 7 ≤ (-128 : Int64).toInt ∧ (-128 : Int64).toInt < 2 ^ 7 := by decide
  exact ⟨ctx, built, typed, forms Int64.maxValue 1000, fits, leaves (-128) fits.1 fits.2⟩

namespace Operation

variable {data : Operation}

/-- An addition has two sides exactly when it has two operands. -/
theorem addends?_eq_some {lhs rhs : ValueId} :
    data.addends? = some (lhs, rhs) ↔ data.operands = [lhs, rhs] := by
  -- Any other number of operands gives no pair.
  unfold addends?
  split
  · rename_i left right operands
    simp [operands]
  · rename_i malformed
    simpa using malformed lhs rhs

/-- An operation has a sole result exactly when it has one and no other. -/
theorem soleResult?_eq_some {result : ValueId} :
    data.soleResult? = some result ↔ data.results = [result] := by
  -- Any other number of results gives no result.
  unfold soleResult?
  split
  · rename_i sole results
    simp [results]
  · rename_i other
    simpa using other result

end Operation

namespace Context

variable {ctx : Context}

/-- What a sum computes is read off the addition and the constants on its two sides. -/
theorem sum?_eq_some {data : Operation} {sum : Sum} (computed : ctx.sum? data = .ok (some sum)) :
    data.isKind .addi ∧ ∃ lhs rhs left right value width,
      data.addends? = some (lhs, rhs) ∧ data.soleResult? = some sum.result ∧
        ctx.constantInt? lhs = .ok (some left) ∧ ctx.constantInt? rhs = .ok (some right) ∧
        ctx.value sum.result = .ok value ∧ sum.type = value.type ∧
        ctx.types.integerWidth? value.type = some width ∧
        sum.value = signExtend (left + right) width := by
  -- Each part is looked up in turn, and none of them may be missing.
  unfold sum? at computed
  split at computed
  · rename_i kind
    split at computed
    · rename_i lhs rhs addends
      split at computed
      · rename_i result sole
        obtain ⟨left?, foundLeft, computed⟩ := bind_eq_ok.mp computed
        obtain ⟨right?, foundRight, computed⟩ := bind_eq_ok.mp computed
        cases left? with
        | none => cases computed
        | some left =>
          cases right? with
          | none => cases computed
          | some right =>
            obtain ⟨value, known, computed⟩ := bind_eq_ok.mp computed
            cases typed : ctx.types.integerWidth? value.type with
            | none =>
              simp only [typed] at computed
              cases computed
            | some width =>
              simp only [typed] at computed
              cases computed
              exact ⟨kind, lhs, rhs, left, right, value, width, addends, sole, foundLeft,
                foundRight, known, rfl, typed, rfl⟩
      · cases computed
    · cases computed
  · cases computed

/-- A number that cannot be looked up belongs to a value that is not defined. -/
theorem constantInt?_eq_error (defined : ctx.ResultsDefined) {value : ValueId} {fault : Fault}
    (failed : ctx.constantInt? value = .error fault) :
    fault = .unknownValue value ∧ ∀ data, ctx.value value ≠ .ok data := by
  rcases bind_eq_error.mp failed with unknown | ⟨data, found, failed⟩
  · -- The fault names the value that is not in the table.
    refine ⟨?_, fun data found => ?_⟩
    · unfold Context.value at unknown
      split at unknown
      · cases unknown
      · cases unknown
        rfl
    · rw [found] at unknown
      cases unknown
  · -- The operation that defines a known value is known.
    split at failed
    · rename_i op defines
      obtain ⟨known, foundOp, -⟩ := (defined value op 0).mp ⟨data, found, defines⟩
      rw [foundOp] at failed
      cases failed
    · cases failed

/-- A sum that cannot be looked up has an operand that is not defined. -/
theorem sum?_eq_error (defined : ctx.ResultsDefined) {op : OpId} {data : Operation}
    {fault : Fault} (found : ctx.op op = .ok data) (failed : ctx.sum? data = .error fault) :
    ∃ value ∈ data.operands, fault = .unknownValue value ∧
      ∀ known, ctx.value value ≠ .ok known := by
  -- The lookups are followed in their order up to the one that fails.
  unfold sum? at failed
  split at failed
  · split at failed
    · rename_i lhs rhs addends
      split at failed
      · rename_i result sole
        have operands := Operation.addends?_eq_some.mp addends
        have results := Operation.soleResult?_eq_some.mp sole
        rcases bind_eq_error.mp failed with unknown | ⟨left?, -, failed⟩
        · obtain ⟨same, undefined⟩ := constantInt?_eq_error defined unknown
          exact ⟨lhs, by simp [operands], same, undefined⟩
        · rcases bind_eq_error.mp failed with unknown | ⟨right?, -, failed⟩
          · obtain ⟨same, undefined⟩ := constantInt?_eq_error defined unknown
            exact ⟨rhs, by simp [operands], same, undefined⟩
          · -- The result of a known operation is defined.
            obtain ⟨value, foundValue, -⟩ :=
              (defined result op 0).mpr ⟨data, found, by simp [results]⟩
            cases left? with
            | none => cases failed
            | some left =>
              cases right? with
              | none => cases failed
              | some right =>
                simp only [foundValue] at failed
                cases typed : ctx.types.integerWidth? value.type with
                | none => simp [typed, Bind.bind, Except.bind, Pure.pure, Except.pure] at failed
                | some width =>
                  simp [typed, Bind.bind, Except.bind, Pure.pure, Except.pure] at failed
      · cases failed
    · cases failed
  · cases failed

end Context

end NestedIR
