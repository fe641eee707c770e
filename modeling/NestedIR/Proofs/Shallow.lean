import Mathlib.Data.List.Nodup
import Mathlib.Data.List.Perm.Subperm
import Mathlib.Logic.Relation

/-! Where only known items lead on and none leads back to itself, every way is short. -/

namespace NestedIR

open Relation

variable {α : Type} {next : α → α → Prop}

/-- Every way from an item is shorter than a number of steps. -/
def Shallow (next : α → α → Prop) : Nat → α → Prop
  | 0, _ => False
  | depth + 1, item => ∀ other, next item other → Shallow next depth other

namespace Shallow

/-- Ways that are shorter than a number of steps are shorter than any greater number. -/
theorem mono {depth deeper : Nat} {item : α} (shallow : Shallow next depth item)
    (le : depth ≤ deeper) : Shallow next deeper item := by
  -- The greater number is used up in the same way, with some of it left over.
  induction depth generalizing deeper item with
  | zero => cases shallow
  | succ depth ih =>
    obtain ⟨rest, rfl⟩ : ∃ rest, deeper = rest + 1 := ⟨deeper - 1, by omega⟩
    exact fun other leads => ih (shallow other leads) (by omega)

/-- A way that passed distinct known items has room for those that it did not pass. -/
theorem of_passed {known : List α} (leadsOn : ∀ item other, next item other → item ∈ known)
    {item : α} (acyclic : ∀ other, ReflTransGen next item other → ¬ TransGen next other other)
    {passed : List α} (distinct : passed.Nodup)
    (above : ∀ outer ∈ passed, outer ∈ known ∧ TransGen next outer item)
    (outside : ∀ outer ∈ passed, ¬ TransGen next outer outer) {depth : Nat}
    (room : known.length + 1 ≤ passed.length + depth) : Shallow next depth item := by
  -- Nothing is passed twice, so the passed items never outnumber the known ones.
  induction depth generalizing item passed with
  | zero =>
    have bounded := distinct.length_le_of_subset fun outer member => (above outer member).1
    omega
  | succ depth ih =>
    intro other leads
    have fresh : item ∉ passed := fun again => outside item again (above item again).2
    refine ih (fun deeper down => acyclic deeper (down.head leads))
      (List.nodup_cons.mpr ⟨fresh, distinct⟩) ?_ ?_ (by simp only [List.length_cons]; omega)
    · intro outer member
      rcases List.mem_cons.mp member with rfl | member
      · exact ⟨leadsOn outer other leads, .single leads⟩
      · exact ⟨(above outer member).1, (above outer member).2.tail leads⟩
    · intro outer member
      rcases List.mem_cons.mp member with rfl | member
      · exact acyclic outer .refl
      · exact outside outer member

/-- Without a way back, no way is longer than there are known items. -/
theorem of_acyclic {known : List α} (leadsOn : ∀ item other, next item other → item ∈ known)
    {item : α} (acyclic : ∀ other, ReflTransGen next item other → ¬ TransGen next other other) :
    Shallow next (known.length + 1) item := by
  -- At the start nothing has been passed.
  refine of_passed leadsOn acyclic List.nodup_nil (by simp) (by simp) ?_
  simp

end Shallow

end NestedIR
