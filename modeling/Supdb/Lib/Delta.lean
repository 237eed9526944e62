import Mathlib.Tactic

/-!
# Masking writes

What one source says of a key is a **delta**: values to append, after everything older is masked or
not.  Deltas compose from the oldest to the newest, and composing them is associative, so a run of
sources can be replaced by one that says what they say together.
-/

namespace StorageLib

variable {β : Type}

/-- Values appended, everything older masked first when `masks`. -/
structure Delta (β : Type) where
  masks : Bool
  vals : List β
  deriving DecidableEq, Repr

namespace Delta

/-- The older delta, then the newer. -/
instance : Mul (Delta β) :=
  ⟨fun a b => ⟨a.masks || b.masks, if b.masks then b.vals else a.vals ++ b.vals⟩⟩

/-- Nothing said. -/
instance : One (Delta β) := ⟨⟨false, []⟩⟩

lemma mul_def (a b : Delta β) :
    a * b = ⟨a.masks || b.masks, if b.masks then b.vals else a.vals ++ b.vals⟩ := rfl

@[simp] lemma masks_mul (a b : Delta β) : (a * b).masks = (a.masks || b.masks) := rfl

@[simp] lemma masks_one : (1 : Delta β).masks = false := rfl

@[simp] lemma vals_one : (1 : Delta β).vals = [] := rfl

lemma vals_mul (a b : Delta β) :
    (a * b).vals = if b.masks then b.vals else a.vals ++ b.vals := rfl

instance : Monoid (Delta β) where
  mul_assoc a b c := by
    simp only [mul_def, mk.injEq, Bool.or_assoc, true_and]
    cases hc : c.masks with
    | true => simp
    | false => cases hb : b.masks <;> simp
  one_mul a := by
    cases a with
    | mk masks vals => cases masks <;> simp [mul_def]
  mul_one a := by
    cases a with
    | mk masks vals => simp [mul_def]

/-- A delta that neither masks nor appends says nothing. -/
lemma eq_one {d : Delta β} (hm : d.masks = false) (hv : d.vals = []) : d = 1 := by
  cases d with
  | mk masks vals =>
      cases hm
      cases hv
      rfl

end Delta

end StorageLib
