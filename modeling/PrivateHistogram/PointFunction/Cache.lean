import PrivateHistogram.PointFunction.Tree
import Std.Data.ExtTreeMap.Lemmas

/-!
Nodes that have been reached before, kept so that a later round need not start at the root.

A cache belongs to one key half. A node that is kept already is not replaced.
-/

namespace PrivateHistogram.PointFunction

/-- Nodes by their depth and their path from the root. -/
structure NodeCache where
  levels : Std.ExtTreeMap UInt32 (Std.ExtTreeMap UInt64 NodeState)
deriving DecidableEq

namespace NodeCache

def empty : NodeCache := ⟨∅⟩

def get? (c : NodeCache) (bits : UInt32) (path : UInt64) : Option NodeState :=
  c.levels[bits]?.bind fun level => level[path]?

/-- Keeps a node, unless one is kept in its place. -/
def insert (c : NodeCache) (bits : UInt32) (path : UInt64) (s : NodeState) : NodeCache :=
  ⟨c.levels.alter bits fun level => some ((level.getD ∅).insertIfNew path s)⟩

def size (c : NodeCache) : Nat := c.levels.foldl (fun n _ level => n + level.size) 0

instance : Codec NodeCache where
  encode c := .record [("levels", Codec.encode c.levels)]
  decode? j := do
    let [levels] ← j.fields? ["levels"] | none
    some { levels := ← Codec.field? levels }

theorem get?_insert (c : NodeCache) (bits bits' : UInt32) (path path' : UInt64) (s : NodeState) :
    (c.insert bits path s).get? bits' path' =
      if bits = bits' ∧ path = path' then some ((c.get? bits path).getD s) else c.get? bits' path' := by
  unfold get? insert
  rw [Std.ExtTreeMap.getElem?_alter]
  by_cases hb : bits = bits'
  · subst hb
    simp only [Std.compare_self, true_and, Option.bind_some, ite_true, Std.ExtTreeMap.getElem?_insertIfNew,
      Std.LawfulEqCmp.compare_eq_iff_eq]
    rcases c.levels[bits]? with _ | level
    · by_cases hp : path = path' <;> simp [hp]
    · by_cases hp : path = path'
      · subst hp
        by_cases hm : path ∈ level <;> simp [hm]
      · simp [hp]
  · simp [hb]

end NodeCache

end PrivateHistogram.PointFunction
