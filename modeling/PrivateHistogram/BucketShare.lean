import PrivateHistogram.PointFunction.Tree

/-!
Shares of a bucket: of the sum of the values in it, and of the number of reports.
-/

namespace PrivateHistogram

structure BucketShare where
  sum : Goldilocks
  count : Goldilocks
deriving DecidableEq, Inhabited

namespace BucketShare

instance : Zero BucketShare := ⟨⟨0, 0⟩⟩
instance : Add BucketShare := ⟨fun a b => ⟨a.sum + b.sum, a.count + b.count⟩⟩
instance : Sub BucketShare := ⟨fun a b => ⟨a.sum - b.sum, a.count - b.count⟩⟩
instance : Neg BucketShare := ⟨fun a => ⟨-a.sum, -a.count⟩⟩

@[simp] theorem sum_zero : (0 : BucketShare).sum = 0 := rfl
@[simp] theorem count_zero : (0 : BucketShare).count = 0 := rfl
@[simp] theorem sum_add (a b : BucketShare) : (a + b).sum = a.sum + b.sum := rfl
@[simp] theorem count_add (a b : BucketShare) : (a + b).count = a.count + b.count := rfl
@[simp] theorem sum_neg (a : BucketShare) : (-a).sum = -a.sum := rfl
@[simp] theorem count_neg (a : BucketShare) : (-a).count = -a.count := rfl
@[simp] theorem sum_sub (a b : BucketShare) : (a - b).sum = a.sum - b.sum := rfl
@[simp] theorem count_sub (a b : BucketShare) : (a - b).count = a.count - b.count := rfl

theorem ext {a b : BucketShare} (sum : a.sum = b.sum) (count : a.count = b.count) : a = b := by
  cases a
  cases b
  congr

instance : Payload BucketShare where
  draw s :=
    let (sum, s) := Goldilocks.draw s
    let (count, s) := Goldilocks.draw s
    (⟨sum, count⟩, s)
  size := 16

instance : LawfulPayload BucketShare where
  add_comm _ _ := ext (Goldilocks.add_comm ..) (Goldilocks.add_comm ..)
  add_assoc _ _ _ := ext (Goldilocks.add_assoc ..) (Goldilocks.add_assoc ..)
  zero_add _ := ext (Goldilocks.zero_add _) (Goldilocks.zero_add _)
  neg_add_cancel _ := ext (Goldilocks.neg_add_cancel _) (Goldilocks.neg_add_cancel _)
  sub_eq_add_neg _ _ := rfl

instance : Codec BucketShare where
  encode s := .record [("sum", Codec.encode s.sum), ("count", Codec.encode s.count)]
  decode? j := do
    let [sum, count] ← j.fields? ["sum", "count"] | none
    some { sum := ← Codec.field? sum, count := ← Codec.field? count }

end BucketShare

end PrivateHistogram
